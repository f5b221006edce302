import AtomicCss.Proofs.Engine.Emission

/-!
What the memory of an engine answers.

An engine remembers the classes of a selection under its key. They are what computing them again
would answer for the selection that was asked first; another selection with that key may list the
branches of one breakpoint in another order, and then resolve to something else.
-/

namespace AtomicCss

/-- Selections with one key are refused alike. They resolve alike if the branches of each breakpoint
come in the same order, and so they do if no breakpoint is named twice. -/
theorem StyleDefinition.resolve_of_key (definition : StyleDefinition) (breakpoints : List String)
    {first second : VariantSelection} (same : first.key = second.key) :
    ((∃ node, definition.resolve first breakpoints none = .ok node) ↔
        ∃ node, definition.resolve second breakpoints none = .ok node) ∧
      (first.InTurn second → ∀ node, definition.resolve first breakpoints none = .ok node ↔
        definition.resolve second breakpoints none = .ok node) ∧
      (first.NamesOnce → first.InTurn second) := by
  refine ⟨⟨?_, ?_⟩, ?_, ?_⟩
  · rintro ⟨node, resolved⟩
    exact resolve_permuted (VariantSelection.permuted_of_key_eq same.symm) resolved
  · rintro ⟨node, resolved⟩
    exact resolve_permuted (VariantSelection.permuted_of_key_eq same) resolved
  · intro inTurn node
    exact ⟨resolve_inTurn inTurn.symm, resolve_inTurn inTurn⟩
  · intro once
    exact (VariantSelection.alike_of_key_eq once same).inTurn

namespace Engine

variable {engine : Engine} {style : CompiledStyle} {selection : VariantSelection}

/-- Computing a class again that is filed changes nothing. -/
theorem Filed.freshClass_of_has (filed : engine.Filed) (settle : Settle Engine)
    {override : Option StyleNode} {declarations : List AtomicDeclaration} {classes : List String}
    (found : engine.declarations style.definition selection override = .ok declarations)
    (given : List.Forall₂ engine.Has classes declarations) :
    engine.freshClass settle style selection override =
      (.ok (" ".intercalate classes), settle engine) := by
  have distinct : classes.Nodup :=
    nodup_of_forall₂ given filed.numbered.has_unique (marked_declarations found).2
  have again := filed.emitAll_of_has given ((List.nil_append classes).symm ▸ distinct)
  rw [List.nil_append] at again
  rw [freshClass_of_ok found, classText, settled, again]

theorem Filed.recompute (filed : engine.Filed) (settle : Settle Engine)
    (known : engine.style? style.number = some style) {key : SelectionKey} {text : String}
    (remembered : engine.remembered? style key = some text) :
    ∃ other : VariantSelection, other.key = key ∧
      ∀ asked : VariantSelection, asked.InTurn other →
        engine.freshClass settle style asked none = (.ok text, settle engine) := by
  obtain ⟨definition, other, declarations, classes, listed, keyed, found, rfl, given⟩ :=
    filed.memo _ _ _ (mem_memo_of_remembered? remembered)
  obtain rfl := Option.some.inj ((definition_of_style? known).symm.trans listed)
  refine ⟨other, keyed, ?_⟩
  intro asked inTurn
  obtain ⟨node, resolved, flat⟩ := bind_eq_ok.mp found
  have found_asked : engine.declarations style.definition asked none = .ok declarations :=
    bind_eq_ok.mpr ⟨node, StyleDefinition.resolve_inTurn inTurn resolved, flat⟩
  exact filed.freshClass_of_has settle found_asked given

/-- A key decides whether a selection is refused, and what it resolves to up to the order of the
branches that one breakpoint has twice. So the remembered classes of a key are what computing them
again answers, and changes nothing, for every selection whose branches come in the order of the one
that was asked first. -/
theorem remembered_in_turn (definition : StyleDefinition) (breakpoints : List String)
    {first second : VariantSelection}
    (same : (definition.normalize first).key = (definition.normalize second).key) :
    let asked := definition.normalize first
    let other := definition.normalize second
    (((∃ node, definition.resolve asked breakpoints none = .ok node) ↔
        ∃ node, definition.resolve other breakpoints none = .ok node) ∧
      (asked.InTurn other → ∀ node, definition.resolve asked breakpoints none = .ok node ↔
        definition.resolve other breakpoints none = .ok node) ∧
      (asked.NamesOnce → asked.InTurn other)) ∧
    ∀ (config : Config) (replicated : Bool) (script : List (List Request)) (requests : List Request)
      (number : Nat) (text : String) (settle : Settle Engine),
      let engine := ((start drain config replicated).withScript script).run requests
      let style : CompiledStyle := ⟨number, definition⟩
      engine.Fits → engine.style? number = some style →
        engine.remembered? style other.key = some text →
          ∃ noted : VariantSelection, noted.key = other.key ∧
            engine.freshClass settle style noted none = (.ok text, settle engine) ∧
            (asked.InTurn noted →
              engine.freshClass settle style asked none = (.ok text, settle engine)) := by
  intro asked other
  refine ⟨definition.resolve_of_key breakpoints same, ?_⟩
  intro config replicated script requests number text settle engine style fits known remembered
  obtain ⟨-, -, -, tidy, -⟩ := (continues_run config replicated script requests).reached
  obtain ⟨noted, keyed, again⟩ := (tidy fits).recompute settle known remembered
  exact ⟨noted, keyed, again noted (VariantSelection.InTurn.refl noted), again asked⟩

/-- Two branches of one breakpoint in either order: one key, two results, and what is remembered for
the first order answers the second. -/
theorem remembered_out_of_turn :
    let config : Config := ⟨"", .empty, [("bp1", "(min-width: 1px)")], .empty, .empty⟩
    let node : StyleNode := [("variants", .node [("size", .node [
      ("a", .node [("color", .text "red")]), ("b", .node [("color", .text "blue")])])])]
    let style : CompiledStyle :=
      ⟨0, [], [("size", [("a", [("color", .text "red")]), ("b", [("color", .text "blue")])])], [],
        []⟩
    let first : VariantSelection := [("size", .responsive [("@bp1", "a"), ("@bp1", "b")])]
    let second : VariantSelection := [("size", .responsive [("@bp1", "b"), ("@bp1", "a")])]
    let engine := ((start drain config false).withScript []).run
      [.compile node, .classOfStyle 0 first none]
    engine.Fits ∧ engine.style? style.number = some style ∧
      (style.definition.normalize first).key = (style.definition.normalize second).key ∧
      ¬ (∀ node,
        style.definition.resolve (style.definition.normalize first) ["bp1"] none = .ok node ↔
          style.definition.resolve (style.definition.normalize second) ["bp1"] none = .ok node) ∧
      engine.remembered? style (style.definition.normalize second).key = some "c-0" ∧
      (engine.freshClass id style (style.definition.normalize second) none).1 = .ok "c-1" ∧
      ∃ other : VariantSelection, other.key = (style.definition.normalize second).key ∧
        engine.freshClass id style other none = (.ok "c-0", engine) := by
  intro config node style first second engine
  let compiled := ((start drain config false).withScript []).run [.compile node]
  let red : AtomicDeclaration := ⟨["@media (min-width: 1px)"], "&", "color", ["red"]⟩
  let blue : AtomicDeclaration := ⟨["@media (min-width: 1px)"], "&", "color", ["blue"]⟩
  have asked_first : style.definition.normalize first = first := rfl
  have asked_second : style.definition.normalize second = second := rfl
  have rank : StyleDefinition.breakpointRank? ["bp1"] "@bp1" = some 1 := by decide
  have resolved :
      style.definition.resolve first ["bp1"] none =
        .ok [("@bp1", .node [("color", .text "blue")])] ∧
        style.definition.resolve second ["bp1"] none =
          .ok [("@bp1", .node [("color", .text "red")])] := by
    simp [style, first, second, StyleDefinition.resolve, StyleDefinition.layGroup,
      StyleDefinition.branches, rank, StyleDefinition.variantNode, Keyed.get?, bind, Except.bind,
      pure, Except.pure, List.mergeSort_of_pairwise, StyleDefinition.layBranch,
      StyleDefinition.Merged.lay, StyleNode.merge, StyleNode.mergeEntry, Keyed.set,
      StyleNode.moveLast, Keyed.erase]
  have keys : first.key = second.key := by
    have stays : [("@bp1", "a"), ("@bp1", "b")].mergeSort VariantValue.pairLe =
        [("@bp1", "a"), ("@bp1", "b")] := List.mergeSort_of_pairwise (by decide)
    have sorts : [("@bp1", "b"), ("@bp1", "a")].mergeSort VariantValue.pairLe =
        [("@bp1", "a"), ("@bp1", "b")] := by
      simp +decide [List.mergeSort, List.MergeSort.Internal.splitInTwo]
    simp only [first, second, VariantSelection.key, List.map_cons, List.map_nil,
      VariantValue.sorted, stays, sorts]
  have found (selection : VariantSelection) (color : String)
      (its : style.definition.resolve selection ["bp1"] none =
        .ok [("@bp1", .node [("color", .text color)])])
      (flat : flatten compiled.vocabulary .scoped [("@bp1", .node [("color", .text color)])] =
        .ok [⟨["@media (min-width: 1px)"], "&", "color", color, 0, 1⟩]) :
      compiled.declarations style.definition selection none =
        .ok [⟨["@media (min-width: 1px)"], "&", "color", [color]⟩] :=
    bind_eq_ok.mpr ⟨_, its, bind_eq_ok.mpr ⟨_, flat, rfl⟩⟩
  have blue_found := found first "blue" resolved.1 (by decide +kernel)
  have red_found := found second "red" resolved.2 (by decide +kernel)
  have named : compiled.classText [blue] = "c-0" := by decide +kernel
  have ran : engine = (compiled.settled drain [blue]).remember style first.key "c-0" := by
    have known : compiled.style? 0 = some style := rfl
    change compiled.serve drain (.classOfStyle 0 first none) = _
    simp only [serve, known]
    rw [className_of_new rfl (asked_first ▸ blue_found), named, asked_first]
  have grows : Grows compiled engine := by
    have settled := (advances_settled advances_drain compiled (marked_declarations blue_found).1
      (sorted_bare config false)).1
    exact ran ▸ grows_composes.trans settled (grows_remember _ _ _ _)
  have fits : engine.Fits := by
    have size : (compiled.settled drain [blue]).index.size ≤ 1 := by decide +kernel
    rw [ran]
    exact Nat.le_trans size (by decide)
  have known : engine.style? style.number = some style := by
    rw [style?, grows.styles (rfl : compiled.styles[style.number]? = some style.definition)]
    rfl
  have remembered : engine.remembered? style second.key = some "c-0" := by
    rw [ran, keys]
    exact remembered?_remember _ _ _ _
  have fresh : (engine.freshClass id style second none).1 = .ok "c-1" := by
    have again := (grows.declarations style.definition second none).trans red_found
    have text : ((compiled.settled drain [blue]).remember style first.key "c-0").classText [red] =
        "c-1" := by
      decide +kernel
    rw [freshClass_of_ok again, ran, text]
  obtain ⟨-, answers⟩ := remembered_in_turn style.definition ["bp1"]
    (asked_first.symm ▸ asked_second.symm ▸ keys :
      (style.definition.normalize first).key = (style.definition.normalize second).key)
  obtain ⟨other, keyed, recomputed, -⟩ :=
    answers config false [] _ 0 "c-0" id fits known (asked_second.symm ▸ remembered)
  rw [asked_second] at keyed
  rw [id_eq] at recomputed
  rw [asked_first, asked_second]
  refine ⟨fits, known, keys, ?_, remembered, fresh, other, keyed, recomputed⟩
  intro alike
  have never := (Except.ok.inj (((alike _).mp resolved.1).symm.trans resolved.2))
  simp at never

end Engine

end AtomicCss
