import AtomicCss.Proofs.Engine.Index
import AtomicCss.Proofs.Rule.Spelling
import AtomicCss.Proofs.Variant.Selection

/-!
The classes that a style answers.

A style answers one class for each declaration that its selection resolves to, whatever was compiled
and remembered before. Each class stands in the index for its declaration, and the rule of that
declaration for that class stands in the sheet.
-/

namespace AtomicCss.Engine

/-- The ways in which a declaration is given a class. -/
inductive Emits (engine : Engine) (declaration : AtomicDeclaration) : String × Engine → Prop where
  | known {className} : engine.Has className declaration →
      Emits engine declaration (className, engine)
  | next (slot) : (engine.index.get? declaration.hash = none → slot = declaration.hash) →
      (∀ rule, engine.index.get? declaration.hash = some rule → rule.declaration ≠ declaration) →
      Emits engine declaration
        ((engine.index.nextRule slot declaration).className,
          engine.withDeclaration slot declaration)

theorem emits_emit (engine : Engine) (declaration : AtomicDeclaration) :
    Emits engine declaration (engine.emit declaration) := by
  have emitted := engine.index.emitted_emit declaration
  unfold emit
  generalize engine.index.emit declaration = answer at emitted ⊢
  cases emitted with
  | known held declares => exact .known ⟨_, held, rfl, declares⟩
  | next slot free absent => exact .next slot free absent

theorem advances_emit (engine : Engine) {declaration : AtomicDeclaration}
    (marked : declaration.Marked) :
    Advances engine (engine.emit declaration).2 := by
  have emits := engine.emits_emit declaration
  generalize engine.emit declaration = answer at emits ⊢
  cases emits with
  | known _ => exact advances_composes.refl engine
  | next slot free absent => exact advances_withDeclaration marked free absent

theorem has_emit (engine : Engine) (declaration : AtomicDeclaration) :
    (engine.emit declaration).2.Has (engine.emit declaration).1 declaration := by
  have emits := engine.emits_emit declaration
  generalize engine.emit declaration = answer at emits ⊢
  cases emits with
  | known has => exact has
  | next slot _ _ => exact engine.has_withDeclaration slot declaration

theorem advances_emitAll {declarations : List AtomicDeclaration}
    (marked : ∀ declaration ∈ declarations, declaration.Marked) (engine : Engine)
    (classes : List String) : Advances engine (engine.emitAll declarations classes).2 := by
  induction declarations generalizing engine classes with
  | nil => exact advances_composes.refl engine
  | cons declaration rest ih =>
    obtain ⟨own, others⟩ := List.forall_mem_cons.mp marked
    exact advances_composes.trans (advances_emit engine own) (ih others _ _)

theorem emitAll_cons_of_fresh {engine : Engine} {declaration : AtomicDeclaration}
    {classes : List String} (fresh : (engine.emit declaration).1 ∉ classes)
    (rest : List AtomicDeclaration) :
    engine.emitAll (declaration :: rest) classes =
      (engine.emit declaration).2.emitAll rest (classes ++ [(engine.emit declaration).1]) := by
  have absent : classes.contains (engine.emit declaration).1 = false := by simpa using fresh
  simp only [emitAll, absent, Bool.false_eq_true, if_false]

theorem Numbered.emit {engine : Engine} (numbered : engine.Numbered)
    (declaration : AtomicDeclaration) :
    (engine.emit declaration).2.Numbered := by
  have emits := engine.emits_emit declaration
  generalize engine.emit declaration = answer at emits ⊢
  cases emits with
  | known _ => exact numbered
  | next slot _ _ => exact numbered.withDeclaration slot declaration

theorem Numbered.has_unique {engine : Engine} (numbered : engine.Numbered) {className : String}
    {first second : AtomicDeclaration} (left : engine.Has className first)
    (right : engine.Has className second) : first = second := by
  have distinct : (engine.index.rules.map (·.className)).Nodup := by
    rw [Numbered] at numbered
    rw [numbered]
    exact List.nodup_reverse.mpr
      (List.nodup_range.map fun _ _ => AtomicIndex.classOf_injective)
  obtain ⟨rule, inside, named, rfl⟩ := left
  obtain ⟨other, within, named_other, rfl⟩ := right
  rw [List.inj_on_of_nodup_map distinct inside within (named.trans named_other.symm)]

theorem Consistent.has_unique {engine : Engine} (consistent : engine.Consistent)
    {className : String} {first second : AtomicDeclaration} (left : engine.Has className first)
    (right : engine.Has className second) : first = second :=
  Numbered.has_unique consistent.names left right

/-- Different declarations get different classes, so that each gets its own. -/
theorem forall₂_emitAll {declarations : List AtomicDeclaration}
    (marked : ∀ declaration ∈ declarations, declaration.Marked) {engine : Engine}
    {classes : List String} {done : List AtomicDeclaration} (sorted : engine.sheet.Sorted)
    (numbered : engine.Numbered) (given : List.Forall₂ engine.Has classes done)
    (distinct : (done ++ declarations).Nodup) :
    List.Forall₂ (engine.emitAll declarations classes).2.Has
      (engine.emitAll declarations classes).1 (done ++ declarations) := by
  induction declarations generalizing engine classes done with
  | nil => simpa [emitAll] using given
  | cons declaration rest ih =>
    obtain ⟨own, others⟩ := List.forall_mem_cons.mp marked
    obtain ⟨grows, next_sorted, -⟩ := advances_emit engine own sorted
    have next_numbered := numbered.emit declaration
    have still : List.Forall₂ (engine.emit declaration).2.Has classes done :=
      given.imp fun _ _ => Has.grow grows
    have here := engine.has_emit declaration
    have fresh : (engine.emit declaration).1 ∉ classes := by
      intro present
      obtain ⟨other, earlier, has⟩ := exists_right_of_forall₂ still present
      have same := next_numbered.has_unique has here
      have apart_from := (List.nodup_append.mp distinct).2.2 other earlier
      exact apart_from declaration List.mem_cons_self same
    have snoc : done ++ declaration :: rest = (done ++ [declaration]) ++ rest := by simp
    rw [emitAll_cons_of_fresh fresh]
    rw [snoc] at distinct ⊢
    exact ih others next_sorted next_numbered (List.rel_append still (.cons here .nil)) distinct

/-- A selection resolves to declarations at different places, whose at-rules are marked as such. -/
theorem marked_declarations {engine : Engine} {definition : StyleDefinition}
    {selection : VariantSelection} {override : Option StyleNode}
    {declarations : List AtomicDeclaration}
    (found : engine.declarations definition selection override = .ok declarations) :
    (∀ declaration ∈ declarations, declaration.Marked) ∧ declarations.Nodup := by
  obtain ⟨node, -, rest⟩ := bind_eq_ok.mp found
  obtain ⟨rules, flat, last⟩ := bind_eq_ok.mp rest
  obtain rfl := Except.ok.inj last
  exact ⟨fun declaration member => AtomicDeclaration.marked_of_mem_collapse flat member,
    (nodup_places_collapse rules).of_map⟩

section Settled

variable {settle : Settle Engine}

theorem advances_settled (settles : ∀ engine, Advances engine (settle engine)) (engine : Engine)
    {declarations : List AtomicDeclaration}
    (marked : ∀ declaration ∈ declarations, declaration.Marked) :
    Advances engine (engine.settled settle declarations) :=
  advances_composes.trans (advances_emitAll marked engine []) (settles _)

theorem answered_settled (settles : ∀ engine, Advances engine (settle engine)) {engine : Engine}
    {declarations : List AtomicDeclaration} (sorted : engine.sheet.Sorted)
    (numbered : engine.Numbered) (marked : ∀ declaration ∈ declarations, declaration.Marked)
    (distinct : declarations.Nodup) :
    List.Forall₂ (engine.settled settle declarations).Has (engine.emitAll declarations []).1
      declarations := by
  have middle := (advances_emitAll marked engine [] sorted).2.1
  have grows := (settles (engine.emitAll declarations []).2 middle).1
  have given := forall₂_emitAll marked sorted numbered .nil (by simpa using distinct)
  rw [List.nil_append] at given
  exact given.imp fun _ _ => Has.grow grows

theorem grows_remember (engine : Engine) (style : CompiledStyle) (key : SelectionKey)
    (text : String) :
    Grows engine (engine.remember style key text) :=
  ⟨rfl, rfl, List.Subset.refl _, List.Subset.refl _, id⟩

theorem advances_remember {engine : Engine} {style : CompiledStyle} {key : SelectionKey}
    {text : String} (answers : engine.HashesApart → engine.Answers style.number key text) :
    Advances engine (engine.remember style key text) := by
  have grows := engine.grows_remember style key text
  apply advances_of_same grows rfl rfl rfl
  intro apart consistent number other_key other member
  rcases List.mem_cons.mp member with same | old
  · obtain ⟨⟨rfl, rfl⟩, rfl⟩ : (number = style.number ∧ other_key = key) ∧ other = text := by
      simpa using same
    exact (answers apart).grow grows
  · exact consistent.answers grows old

theorem definition_of_style? {engine : Engine} {style : CompiledStyle}
    (known : engine.style? style.number = some style) :
    engine.styles[style.number]? = some style.definition := by
  obtain ⟨definition, found, same⟩ := Option.map_eq_some_iff.mp known
  rw [found, ← same]

theorem answers_settled (settles : ∀ engine, Advances engine (settle engine)) {engine : Engine}
    {style : CompiledStyle} {selection : VariantSelection} {declarations : List AtomicDeclaration}
    (known : engine.style? style.number = some style) (sorted : engine.sheet.Sorted)
    (numbered : engine.Numbered)
    (found : engine.declarations style.definition selection none = .ok declarations) :
    (engine.settled settle declarations).Answers style.number selection.key
      (engine.classText declarations) := by
  obtain ⟨marked, distinct⟩ := marked_declarations found
  have grows := (advances_settled settles engine marked sorted).1
  exact ⟨style.definition, selection, declarations, _,
    grows.styles (definition_of_style? known), rfl, (grows.declarations _ _ _).trans found, rfl,
    answered_settled settles sorted numbered marked distinct⟩

theorem advances_className (settles : ∀ engine, Advances engine (settle engine)) (engine : Engine)
    {style : CompiledStyle} (selection : VariantSelection) (override : Option StyleNode)
    (known : engine.style? style.number = some style) :
    Advances engine (engine.className settle style selection override).2 := by
  have asked := engine.asked_className settle style selection override
  generalize engine.className settle style selection override = answer at asked ⊢
  cases asked with
  | remembered _ => exact advances_composes.refl engine
  | refused _ => exact advances_composes.refl engine
  | overridden found => exact advances_settled settles engine (marked_declarations found).1
  | noted _ found =>
    intro sorted
    obtain ⟨grows, after_sorted, keeps⟩ :=
      advances_settled settles engine (marked_declarations found).1 sorted
    refine ⟨grows_composes.trans grows (grows_remember _ _ _ _), after_sorted, ?_⟩
    intro kept
    have answers (apart : (engine.settled settle _).HashesApart) :=
      answers_settled settles known sorted (kept (grows.apart apart)).names found
    exact (advances_remember answers after_sorted).2.2 (keeps kept)

theorem advances_insertText (settles : ∀ engine, Advances engine (settle engine)) (engine : Engine)
    {group : SheetGroup} (css : String) (early : group.order < 3) :
    Advances engine (engine.insertText settle group css) :=
  advances_composes.trans (advances_text engine early css) (settles _)

theorem advances_compiled (engine : Engine) (definition : StyleDefinition) :
    Advances engine { engine with styles := engine.styles ++ [definition] } := by
  have grows : Grows engine { engine with styles := engine.styles ++ [definition] } := by
    refine ⟨rfl, rfl, List.Subset.refl _, List.Subset.refl _, ?_⟩
    intro number own found
    exact (List.getElem?_append_left (List.getElem?_eq_some_iff.mp found).1).trans found
  apply advances_of_same grows rfl rfl rfl
  intro _ consistent number key text member
  exact consistent.answers grows member

theorem advances_holdsAcross (settles : ∀ engine, Advances engine (settle engine)) :
    HoldsAcross settle Advances where
  toComposes := advances_composes
  compiled := advances_compiled
  text engine _ css early := advances_insertText settles engine css early
  asked engine _ selection override known :=
    advances_className settles engine selection override known

end Settled

theorem advances_replica : HoldsAcrossReplica Advances := by
  intro engine replica pending
  have grows : Grows engine { engine with sheet := { engine.sheet with pending }, replica } :=
    ⟨rfl, rfl, List.Subset.refl _, List.Subset.refl _, id⟩
  apply advances_of_same grows rfl rfl rfl
  intro _ consistent number key text member
  exact consistent.answers grows member

theorem advances_drain (engine : Engine) : Advances engine engine.drain :=
  related_drain (advances_holdsAcross advances_composes.refl) advances_replica.delivery engine

theorem sorted_bare (config : Config) (replicated : Bool) :
    (bare config replicated).sheet.Sorted := by
  cases replicated
  · exact Sheet.sorted_fresh none
  · exact Sheet.sorted_fresh (some [])

theorem consistent_bare (config : Config) (replicated : Bool) :
    (bare config replicated).Consistent where
  namePrefix := rfl
  names := rfl
  slots := List.nodup_nil
  stands := by simp [bare, AtomicIndex.empty]
  seen := by cases replicated <;> simp [bare, Sheet.empty, Sheet.replicated]
  memo := by simp [bare]

theorem advances_run (config : Config) (replicated : Bool) (script : List (List Request))
    (requests : List Request) :
    Advances (bare config replicated)
      (((start drain config replicated).withScript script).run requests) :=
  (advances_holdsAcross advances_drain).reached advances_replica config replicated script requests

theorem mem_memo_of_remembered? {engine : Engine} {style : CompiledStyle} {key : SelectionKey}
    {text : String} (found : engine.remembered? style key = some text) :
    ((style.number, key), text) ∈ engine.memo := by
  obtain ⟨entry, first, rfl⟩ := Option.map_eq_some_iff.mp found
  have named := List.find?_some first
  rw [← of_decide_eq_true named]
  exact List.mem_of_find?_eq_some first

/-- The classes of a selection that repeats no breakpoint are those of its declarations, remembered
or not, as long as what is remembered is right. -/
theorem answered_of_memo {engine after : Engine} {style : CompiledStyle}
    {selection : VariantSelection} {override : Option StyleNode} {text : String}
    (sorted : engine.sheet.Sorted) (numbered : engine.Numbered)
    (memo : ∀ number key text, ((number, key), text) ∈ engine.memo → engine.Answers number key text)
    (known : engine.style? style.number = some style)
    (once : (style.definition.normalize selection).NamesOnce)
    (answered : engine.className drain style selection override = (.ok text, after)) :
    ∃ declarations classes,
      engine.declarations style.definition (style.definition.normalize selection) override =
          .ok declarations ∧
        text = " ".intercalate classes ∧ List.Forall₂ after.Has classes declarations := by
  have asked := engine.asked_className drain style selection override
  rw [answered] at asked
  generalize style.definition.normalize selection = asks at asked once ⊢
  cases asked with
  | remembered found =>
    obtain ⟨definition, other, declarations, classes, listed, keyed, found, joined, given⟩ :=
      memo _ _ _ (mem_memo_of_remembered? found)
    obtain rfl := Option.some.inj ((definition_of_style? known).symm.trans listed)
    obtain ⟨node, resolved, flat⟩ := bind_eq_ok.mp found
    exact ⟨declarations, classes,
      bind_eq_ok.mpr ⟨node, resolve_of_key_eq once keyed.symm resolved, flat⟩, joined, given⟩
  | overridden found =>
    obtain ⟨marked, distinct⟩ := marked_declarations found
    exact ⟨_, _, found, rfl, answered_settled advances_drain sorted numbered marked distinct⟩
  | noted _ found =>
    obtain ⟨marked, distinct⟩ := marked_declarations found
    have given := answered_settled advances_drain sorted numbered marked distinct
    exact ⟨_, _, found, rfl, given.imp fun _ _ => Has.grow (grows_remember _ _ _ _)⟩

theorem answered_className {engine after : Engine} {style : CompiledStyle}
    {selection : VariantSelection} {override : Option StyleNode} {text : String}
    (sorted : engine.sheet.Sorted) (kept : engine.Kept)
    (known : engine.style? style.number = some style)
    (once : (style.definition.normalize selection).NamesOnce)
    (answered : engine.className drain style selection override = (.ok text, after))
    (apart : after.HashesApart) :
    ∃ declarations classes,
      engine.declarations style.definition (style.definition.normalize selection) override =
          .ok declarations ∧
        text = " ".intercalate classes ∧ List.Forall₂ after.Has classes declarations := by
  have grows := (advances_className advances_drain engine selection override known sorted).1
  rw [answered] at grows
  have consistent := kept (grows.apart apart)
  exact answered_of_memo sorted consistent.names consistent.memo known once answered

theorem plain_of_validate {config : Config} (valid : config.validate = .ok config) :
    config.namePrefix.toList.all Config.isPrefixChar = true := by
  by_cases plain : config.namePrefix.toList.all Config.isPrefixChar = true
  · exact plain
  · simp [Config.validate, plain, throw, throwThe, MonadExceptOf.throw, bind, Except.bind] at valid

theorem Consistent.isWord {engine : Engine} (consistent : engine.Consistent)
    (plain : engine.config.namePrefix.toList.all Config.isPrefixChar = true) {className : String}
    {declaration : AtomicDeclaration} (has : engine.Has className declaration) :
    Text.IsWord className := by
  obtain ⟨rule, inside, rfl, -⟩ := has
  have listed : rule.className ∈ engine.index.rules.map (·.className) :=
    List.mem_map_of_mem inside
  rw [consistent.names, List.mem_reverse] at listed
  obtain ⟨number, -, named⟩ := List.mem_map.mp listed
  rw [← named, consistent.namePrefix]
  exact AtomicIndex.isWord_classOf plain number

/-- The rule of a declaration for a class stands in the index and in the sheet. -/
theorem Consistent.holds {engine : Engine} (consistent : engine.Consistent) {className : String}
    {declaration : AtomicDeclaration} (has : engine.Has className declaration) :
    ∃ css : String, css.toList = declaration.spelled className ∧
      engine.index.get? declaration.hash = some ⟨declaration.hash, className, declaration, css⟩ ∧
      ⟨declaration.group, declaration.rank engine.config.breakpoints, css⟩ ∈
        engine.sheet.rules := by
  obtain ⟨rule, inside, rfl, rfl⟩ := has
  obtain ⟨-, slot, css, sheet⟩ := consistent.stands rule inside
  have found := AtomicIndex.get?_of_mem consistent.slots inside
  rw [slot] at found
  refine ⟨rule.css, ?_, by rw [found, ← slot], sheet⟩
  rw [css, AtomicDeclaration.toList_ruleText]

theorem namesOnce_normalize (definition : StyleDefinition) {selection : VariantSelection}
    (once : selection.NamesOnce) : (definition.normalize selection).NamesOnce :=
  fun group branches member => once group branches (List.mem_filter.mp member).1

/-- Whatever was called before, a style answers one class for each declaration of a selection, in
the order of the declarations; the class stands in the index for its declaration, and the sheet
holds the rule that the declaration spells for the class. -/
theorem classes_of_declarations {config : Config} {replicated : Bool} {script : List (List Request)}
    {requests : List Request} {engine after : Engine} {style : CompiledStyle}
    {selection : VariantSelection} {override : Option StyleNode} {text : String}
    (valid : config.validate = .ok config)
    (reached : engine = ((start drain config replicated).withScript script).run requests)
    (known : engine.style? style.number = some style) (once : selection.NamesOnce)
    (answered : engine.className drain style selection override = (.ok text, after))
    (apart : after.HashesApart) :
    ∃ node rules,
      style.definition.resolve (style.definition.normalize selection) config.breakpoints.names
          override = .ok node ∧
        flatten (config.vocabulary config.defaultTheme) .scoped node = .ok rules ∧
        text = " ".intercalate (Text.words text) ∧ (Text.words text).Nodup ∧
        List.Forall₂ (fun className declaration =>
          ∃ css : String, css.toList = declaration.spelled className ∧
            after.index.get? declaration.hash =
              some ⟨declaration.hash, className, declaration, css⟩ ∧
            ⟨declaration.group, declaration.rank config.breakpoints, css⟩ ∈ after.sheet.rules)
          (Text.words text) (collapse rules) := by
  obtain ⟨grows, sorted, keeps⟩ := reached ▸
    advances_run config replicated script requests (sorted_bare config replicated)
  have kept := keeps fun _ => consistent_bare config replicated
  obtain ⟨declarations, classes, found, rfl, given⟩ :=
    answered_className sorted kept known (namesOnce_normalize _ once) answered apart
  obtain ⟨later, -, keeps_after⟩ :=
    advances_className advances_drain engine selection override known sorted
  rw [answered] at later keeps_after
  have consistent := keeps_after kept apart
  have whole := grows_composes.trans grows later
  have same_config : after.config = config := whole.config
  rw [grows.declarations] at found
  obtain ⟨node, resolved, rest⟩ := bind_eq_ok.mp found
  obtain ⟨rules, flat, last⟩ := bind_eq_ok.mp rest
  obtain rfl := Except.ok.inj last
  have plain := plain_of_validate valid
  have each : ∀ className ∈ classes, Text.IsWord className := by
    intro className member
    obtain ⟨declaration, -, has⟩ := exists_right_of_forall₂ given member
    exact consistent.isWord (same_config ▸ plain) has
  rw [Text.words_intercalate each]
  refine ⟨node, rules, resolved, flat, rfl, ?_, ?_⟩
  · exact nodup_of_forall₂ given consistent.has_unique (nodup_places_collapse rules).of_map
  · exact given.imp fun className declaration has => same_config ▸ consistent.holds has

theorem apart_of_nodup {engine : Engine} (distinct : (engine.hashed.map Hash.content).Nodup) :
    engine.HashesApart :=
  fun _ inside _ within => List.inj_on_of_nodup_map distinct inside within

/-- A variant with fallbacks at a breakpoint and an override of a compiled style get a class each,
with rules in which the digit at the start of the class is escaped. -/
theorem classes_of_overridden :
    let config : Config := ⟨"1x", .empty, [("bp1", "(min-width: 640px)")], .empty, .empty⟩
    let node : StyleNode := [("color", .text "red"), ("variants", .node [("size", .node [
      ("lg", .node
        [("@bp1", .node [("&:hover", .node [("margin", .list [.text "8px", .text "1em"])])])])])])]
    let selection : VariantSelection := [("size", .single "lg")]
    let override : StyleNode := [("color", .text "green")]
    let engine := ((start drain config true).withScript []).run [.compile node]
    config.validate = .ok config ∧ selection.NamesOnce ∧
      ∃ style after, engine.style? style.number = some style ∧
        engine.className drain style selection (some override) = (.ok "1x-c-0 1x-c-1", after) ∧
        after.HashesApart ∧
        after.sheet.rules = [⟨.atomic, 0, ".\\31 x-c-1\x7bcolor:green\x7d"⟩,
          ⟨.conditional, 1,
            "@media (min-width: 640px)\x7b.\\31 x-c-0:hover\x7bmargin:8px;margin:1em\x7d\x7d"⟩] ∧
        ∃ node rules,
          style.definition.resolve (style.definition.normalize selection) config.breakpoints.names
              (some override) = .ok node ∧
            flatten (config.vocabulary config.defaultTheme) .scoped node = .ok rules ∧
            List.Forall₂ (fun className declaration =>
              ∃ css : String, css.toList = declaration.spelled className ∧
                after.index.get? declaration.hash =
                  some ⟨declaration.hash, className, declaration, css⟩ ∧
                ⟨declaration.group, declaration.rank config.breakpoints, css⟩ ∈ after.sheet.rules)
              ["1x-c-0", "1x-c-1"] (collapse rules) := by
  intro config node selection override engine
  have valid : config.validate = .ok config := by
    simp +decide [config, Config.validate, Config.checkBreakpoints, Config.checkScales,
      Config.checkName, NameMap.empty, NameMap.toList, NameMap.names, bind, Except.bind, pure,
      Except.pure]
  have once : selection.NamesOnce := by simp [selection, VariantSelection.NamesOnce]
  have evaluated : (engine.style? 0).any (fun style =>
      let answered := engine.className drain style selection (some override)
      answered.1 = .ok "1x-c-0 1x-c-1" ∧ (answered.2.hashed.map Hash.content).Nodup ∧
        answered.2.sheet.rules = [⟨.atomic, 0, ".\\31 x-c-1\x7bcolor:green\x7d"⟩,
          ⟨.conditional, 1,
            "@media (min-width: 640px)\x7b.\\31 x-c-0:hover\x7bmargin:8px;margin:1em\x7d\x7d"⟩]) =
        true := by
    decide +kernel
  obtain ⟨style, compiled, answers⟩ := (Option.any_eq_true _ _).mp evaluated
  obtain ⟨answer, distinct, written⟩ := of_decide_eq_true answers
  have answered : engine.className drain style selection (some override) =
      (.ok "1x-c-0 1x-c-1", (engine.className drain style selection (some override)).2) :=
    Prod.ext answer rfl
  have apart := apart_of_nodup distinct
  obtain ⟨node, rules, resolved, flat, -, -, given⟩ :=
    classes_of_declarations valid rfl (number_style? compiled) once answered apart
  have split : Text.words "1x-c-0 1x-c-1" = ["1x-c-0", "1x-c-1"] := by decide
  exact ⟨valid, once, style, _, number_style? compiled, answered, apart, written, node, rules,
    resolved, flat, split ▸ given⟩

end AtomicCss.Engine
