import AtomicCss.Proofs.Engine.ClassName
import AtomicCss.Proofs.Engine.Insertions

/-!
The groups that a run inserts into.

Global texts, themes and the rules of classes go to groups of their own, so that the operations of a
kind alone decide what comes into its groups, and in which order. Unless texts that a run hashes
collide, insertions of different groups share no hash, and none of them is taken for a repetition of
one in another group.
-/

namespace AtomicCss

/-- The kind of operation that inserts into a group. -/
def SheetGroup.source : SheetGroup → OperationKind
  | imports | global => .globals
  | themed => .themes
  | atomic | nested | conditional => .classes

/-- No two different lists of texts share a hash. -/
def Hash.Apart (lists : List (List String)) : Prop :=
  ∀ first ∈ lists, ∀ second ∈ lists, Hash.content first = Hash.content second → first = second

theorem SheetGroup.name_injective {first second : SheetGroup} (same : first.name = second.name) :
    first = second := by
  cases first <;> cases second <;> first | rfl | simp [name] at same

theorem order_of_source {group : SheetGroup} (early : group.source ≠ .classes) :
    group.order < 3 := by
  cases group <;> simp_all [SheetGroup.source, SheetGroup.order]

theorem source_globalRules {rules : List FlatRule} {text : SheetGroup × String}
    (member : text ∈ globalRules rules) : text.1.source = .globals := by
  obtain ⟨draft, -, rfl⟩ := List.mem_map.mp member
  cases draft <;> rfl

namespace Engine

variable {engine : Engine} {operations : List Operation}

/-- Global styles of the operations were compiled on the engine or on one with its vocabulary. -/
def Compiled (engine : Engine) (operations : List Operation) : Prop :=
  ∀ style, .apply style ∈ operations → ∃ node, engine.globalCss node = .ok style

/-- An operation inserts into the groups of its kind. -/
theorem source_texts (compiled : engine.Compiled operations) {operation : Operation}
    (member : operation ∈ operations) {text : SheetGroup × String}
    (inside : text ∈ engine.texts operation) :
    text.1.source = operation.kind ∧ operation.kind ≠ .classes := by
  cases operation with
  | apply style =>
    obtain ⟨node, found⟩ := compiled style member
    obtain ⟨rules, -, same⟩ := globalCss_eq_ok found
    rw [texts, same] at inside
    exact ⟨source_globalRules inside, by simp [Operation.kind]⟩
  | keyframes node =>
    simp only [texts] at inside
    split at inside
    · obtain rfl := List.mem_singleton.mp inside
      exact ⟨rfl, by simp [Operation.kind]⟩
    · cases inside
  | createTheme name overrides =>
    simp only [texts] at inside
    split at inside
    · split at inside
      · cases inside
      · obtain rfl := List.mem_singleton.mp inside
        exact ⟨rfl, by simp [Operation.kind]⟩
    · cases inside
  | _ => cases inside

theorem order_texts_of_compiled (compiled : engine.Compiled operations) :
    ∀ operation ∈ operations, ∀ text ∈ engine.texts operation, text.1.order < 3 := by
  intro operation member text inside
  obtain ⟨source, other⟩ := source_texts compiled member inside
  exact order_of_source (source ▸ other)

/-- Of the texts that go to a group, only those of the group's kind of operation count. -/
theorem texts_of_group (compiled : engine.Compiled operations) (group : SheetGroup) :
    (operations.flatMap engine.texts).filter (fun text => text.1 = group) =
      ((operations.filter (·.kind = group.source)).flatMap engine.texts).filter
        (fun text => text.1 = group) := by
  induction operations with
  | nil => rfl
  | cons operation rest ih =>
    have compiled_rest : engine.Compiled rest := fun style member => compiled style (.tail _ member)
    rw [List.flatMap_cons, List.filter_append, ih compiled_rest]
    by_cases same : operation.kind = group.source
    · rw [List.filter_cons_of_pos (by simpa using same), List.flatMap_cons, List.filter_append]
    · have nothing : (engine.texts operation).filter (fun text => text.1 = group) = [] := by
        rw [List.filter_eq_nil_iff]
        intro text inside there
        obtain ⟨source, -⟩ := source_texts compiled (.head _) inside
        exact same (source.symm.trans (congrArg _ (of_decide_eq_true there)))
      rw [nothing, List.filter_cons_of_neg (by simpa using same), List.nil_append]

theorem inserts_performAll (quiet : engine.Quiet)
    (early : ∀ operation ∈ operations, ∀ text ∈ engine.texts operation, text.1.order < 3) :
    Inserts (operations.flatMap engine.texts) engine (engine.performAll drain operations) := by
  induction operations generalizing engine with
  | nil => exact inserts_refl engine
  | cons operation rest ih =>
    obtain ⟨own, others⟩ := List.forall_mem_cons.mp early
    have first := inserts_perform quiet own
    have same := texts_of_same first.config first.theme
    have later := ih (quiet_perform quiet operation) (by simpa only [same] using others)
    rw [funext same] at later
    exact first.trans later

/-- The texts that a configuration starts with. -/
def defaultTexts (config : Config) : List (SheetGroup × String) :=
  if config.defaultTheme.isEmpty then [] else [(.themed, themeRule config config.defaultTheme)]

theorem quiet_bare (config : Config) (replicated : Bool) : (bare config replicated).Quiet := by
  intro replica found
  cases replicated with
  | false => cases found
  | true =>
    obtain rfl := Option.some.inj found
    rfl

theorem inserts_start (config : Config) (replicated : Bool) :
    (start drain config replicated).Quiet ∧
      Inserts (defaultTexts config) (bare config replicated) (start drain config replicated) := by
  have quiet := quiet_bare config replicated
  have theme : (bare config replicated).theme = config.defaultTheme := rfl
  simp only [start, defaultTexts, theme]
  split
  · exact ⟨quiet, inserts_refl _⟩
  · refine ⟨quiet_insertText quiet _ _, ?_⟩
    have early : ∀ text ∈ [(SheetGroup.themed, themeRule config config.defaultTheme)],
        text.1.order < 3 := by
      simp [SheetGroup.order]
    exact inserts_insertTexts quiet early

theorem compiled_operations (request : Request) : engine.Compiled (engine.operations request) := by
  intro style member
  cases request with
  | applyGlobal node =>
    simp only [Engine.operations] at member
    cases found : engine.globalCss node with
    | error error => simp [found] at member
    | ok compiled =>
      refine ⟨node, ?_⟩
      simpa [found, eq_comm] using member
  | classOf node selection override =>
    rcases List.mem_cons.mp member with same | asked
    · cases same
    · split at asked <;> simp at asked
  | compose | classOfStyle | render =>
    simp only [Engine.operations] at member
    split at member <;> simp at member
  | compile | keyframes | theme => simp [Engine.operations] at member

theorem compiled_calls (requests : List Request) : engine.Compiled (engine.calls requests) := by
  -- Requests are served on engines with one vocabulary, so that each compiles the same global
  -- styles.
  have from_here (other : Engine) (config : other.config = engine.config)
      (theme : other.theme = engine.theme) : engine.Compiled (other.calls requests) := by
    induction requests generalizing other with
    | nil => exact fun style member => absurd member List.not_mem_nil
    | cons request rest ih =>
      obtain ⟨_, inserts⟩ := (insertsSome_holdsAcross insertsSome_drain).serve other request
      intro style member
      rcases List.mem_append.mp member with own | later
      · obtain ⟨node, found⟩ := compiled_operations request style own
        exact ⟨node, (globalCss_of_same config theme node).symm.trans found⟩
      · exact ih _ (inserts.config.trans config) (inserts.theme.trans theme) style later
  exact from_here engine rfl rfl

/-- The texts that a run inserts. -/
def runTexts (config : Config) (replicated : Bool) (requests : List Request) :
    List (SheetGroup × String) :=
  let origin := start drain config replicated
  defaultTexts config ++ (origin.calls requests).flatMap origin.texts

/-- The lists of texts that a run hashes for rules: of declarations that got a class, and of
texts. -/
def runHashes (config : Config) (replicated : Bool) (requests : List Request) :
    List (List String) :=
  ((start drain config replicated).run requests).index.rules.map (·.declaration.parts) ++
    (runTexts config replicated requests).map fun text => textParts text.1 text.2

/-- What is hashed for the rules of a group. -/
inductive GoesTo : List String → SheetGroup → Prop where
  | declaration {declaration : AtomicDeclaration} : declaration.Marked →
      GoesTo declaration.parts declaration.group
  | text (group : SheetGroup) (css : String) : GoesTo (textParts group css) group

theorem GoesTo.unique {parts : List String} {first second : SheetGroup} (left : GoesTo parts first)
    (right : GoesTo parts second) : first = second := by
  cases left with
  | declaration marked =>
    generalize same : AtomicDeclaration.parts _ = parts at right
    cases right with
    | declaration marked_too => rw [AtomicDeclaration.parts_injective marked marked_too same]
    | text => exact absurd same (textParts_ne marked _ _)
  | text group css =>
    generalize same : textParts _ _ = parts at right
    cases right with
    | declaration marked => exact absurd same.symm (textParts_ne marked _ _)
    | text =>
      simp only [textParts, List.cons.injEq] at same
      exact SheetGroup.name_injective same.2.1

theorem withScript_of_quiet (quiet : engine.Quiet) : engine.withScript [] = engine := by
  cases kept : engine.replica with
  | none => rw [withScript, kept, Option.map_none, ← kept]
  | some replica =>
    have same : ({ replica with script := [] } : Replica) = replica := by rw [← quiet replica kept]
    rw [withScript, kept, Option.map_some, same, ← kept]

section Run

variable {config : Config} {replicated : Bool} {requests : List Request}
  {insertions : List Insertion}

/-- The sheet of a run holds what was inserted: the rules of classes in the order of the index, and
the texts in the order of the calls. -/
structure Inserted (config : Config) (replicated : Bool) (requests : List Request)
    (insertions : List Insertion) : Prop where
  rules : ((start drain config replicated).run requests).sheet.rules =
    ((Sheet.fresh none).insertAll insertions).rules
  classes : insertions.filter (·.late) =
    ((start drain config replicated).run requests).index.rules.reverse.map
      (AtomicRule.insertion config.breakpoints)
  texts : insertions.filter (!·.late) = (runTexts config replicated requests).map textInsertion

theorem exists_inserted (config : Config) (replicated : Bool) (requests : List Request) :
    ∃ insertions, Inserted config replicated requests insertions := by
  obtain ⟨quiet, started⟩ := inserts_start config replicated
  have performed := inserts_performAll quiet (order_texts_of_compiled (compiled_calls requests))
  rw [← run_eq_performAll] at performed
  obtain ⟨-, -, fresh, insertions, rules, sheet, classes, plain⟩ := started.trans performed
  have nothing : (bare config replicated).sheet.unqueued = Sheet.fresh none := by
    cases replicated <;> rfl
  rw [nothing] at sheet
  have written : ((start drain config replicated).run requests).sheet.unqueued.rules = _ :=
    congrArg Sheet.rules sheet
  have all : ((start drain config replicated).run requests).index.rules = fresh :=
    rules.trans (List.append_nil fresh)
  refine ⟨insertions, written, ?_, plain⟩
  rw [classes, all]
  rfl

namespace Inserted

variable (inserted : Inserted config replicated requests insertions)

include inserted

theorem exists_text {insertion : Insertion} (member : insertion ∈ insertions)
    (early : insertion.late = false) :
    ∃ text ∈ runTexts config replicated requests, textInsertion text = insertion := by
  apply List.mem_map.mp
  rw [← inserted.texts]
  exact List.mem_filter.mpr ⟨member, by simp [early]⟩

theorem exists_class {insertion : Insertion} (member : insertion ∈ insertions)
    (late : insertion.late = true) :
    ∃ rule ∈ ((start drain config replicated).run requests).index.rules,
      rule.insertion config.breakpoints = insertion := by
  have listed := List.mem_filter.mpr ⟨member, late⟩
  rw [inserted.classes] at listed
  obtain ⟨rule, held, same⟩ := List.mem_map.mp listed
  exact ⟨rule, List.mem_reverse.mp held, same⟩

/-- In the groups of classes stand the rules of the index, in the others the texts. -/
theorem filter_group (group : SheetGroup) :
    insertions.filter (fun insertion => insertion.group = group) =
      if group.source = .classes then
        (((start drain config replicated).run requests).index.rules.reverse.map
          (AtomicRule.insertion config.breakpoints)).filter fun insertion => insertion.group = group
      else
        ((runTexts config replicated requests).map textInsertion).filter
          fun insertion => insertion.group = group := by
  have there {insertion : Insertion} (here : insertion.group = group) :
      insertion.late = true ↔ group.source = .classes := by
    subst here
    cases group : insertion.group <;> simp [Insertion.late, group, SheetGroup.order,
      SheetGroup.source]
  split
  · next source =>
    rw [← inserted.classes, List.filter_filter]
    apply List.filter_congr
    intro insertion _
    by_cases here : insertion.group = group
    · simp [here, (there here).mpr source]
    · simp [here]
  · next source =>
    rw [← inserted.texts, List.filter_filter]
    apply List.filter_congr
    intro insertion _
    by_cases here : insertion.group = group
    · simp [here, Bool.eq_false_iff.mpr (mt (there here).mp source)]
    · simp [here]

section Apart

variable (apart : Hash.Apart (runHashes config replicated requests))

include apart

theorem consistent : ((start drain config replicated).run requests).Consistent := by
  have advances := advances_run config replicated [] requests (sorted_bare config replicated)
  rw [withScript_of_quiet (inserts_start config replicated).1] at advances
  apply advances.2.2 fun _ => consistent_bare config replicated
  have within : ((start drain config replicated).run requests).hashed ⊆
      runHashes config replicated requests := by
    intro parts member
    rcases List.mem_append.mp member with declared | written
    · exact List.mem_append_left _ declared
    · obtain ⟨rule, held, rfl⟩ := List.mem_map.mp written
      obtain ⟨inside, early⟩ := List.mem_filter.mp held
      rw [inserted.rules] at inside
      obtain ⟨insertion, taken, rfl⟩ := Sheet.mem_rules_insertAll inside
      have not_late : insertion.late = false :=
        decide_eq_false (Nat.not_le.mpr (of_decide_eq_true early))
      obtain ⟨text, listed, rfl⟩ := inserted.exists_text taken not_late
      exact List.mem_append_right _ (List.mem_map.mpr ⟨text, listed, rfl⟩)
  exact fun first left second right => apart first (within left) second (within right)

theorem hashed_for {insertion : Insertion} (member : insertion ∈ insertions) :
    ∃ parts ∈ runHashes config replicated requests, insertion.hash = Hash.content parts ∧
      GoesTo parts insertion.group := by
  cases late : insertion.late with
  | true =>
    obtain ⟨rule, held, rfl⟩ := inserted.exists_class member late
    have stands := (inserted.consistent apart).stands rule held
    exact ⟨_, List.mem_append_left _ (List.mem_map_of_mem held), stands.slot,
      .declaration stands.marked⟩
  | false =>
    obtain ⟨text, listed, rfl⟩ := inserted.exists_text member late
    exact ⟨_, List.mem_append_right _ (List.mem_map_of_mem listed), rfl, .text text.1 text.2⟩

/-- Insertions of a run that share a hash go to one group. -/
theorem group_of_hash : ∀ one ∈ insertions, ∀ other ∈ insertions, one.hash = other.hash →
    one.group = other.group := by
  intro one inside other within equal
  obtain ⟨parts, present, hash, goes⟩ := inserted.hashed_for apart inside
  obtain ⟨parts_too, present_too, hash_too, goes_too⟩ := inserted.hashed_for apart within
  obtain rfl := apart parts present parts_too present_too (hash.symm.trans (equal.trans hash_too))
  exact goes.unique goes_too

end Apart

end Inserted

end Run

end Engine

end AtomicCss
