import AtomicCss.Proofs.Engine.Insertions

/-!
What the classes of an engine depend on.

Asking for a class reads and writes the index and what is remembered, and reads configuration and
theme; the sheet plays no part, nor do the numbers of styles as long as they tell styles apart. So
the operations of a run that ask for classes answer as they would without the others.
-/

namespace AtomicCss

/-- What decides which classes an engine answers. -/
structure ClassState where
  config : Config
  theme : Theme
  index : AtomicIndex
  memo : List ((Nat × SelectionKey) × String)

/-- The same state with styles that are kept under other numbers. -/
def ClassState.renumber (number : Nat → Nat) (state : ClassState) : ClassState :=
  { state with memo := state.memo.map fun entry => ((number entry.1.1, entry.1.2), entry.2) }

@[simp] theorem ClassState.renumber_id (state : ClassState) : state.renumber id = state := by
  simp [renumber]

namespace Engine

def classState (engine : Engine) : ClassState :=
  ⟨engine.config, engine.theme, engine.index, engine.memo⟩

variable {engine first second : Engine} {number : Nat → Nat}

theorem classState_insertText (quiet : engine.Quiet) (group : SheetGroup) (css : String) :
    (engine.insertText drain group css).classState = engine.classState := by
  have taken :
      ({ engine with
          sheet := (engine.sheet.take (textInsertion (group, css))).2 } : Engine).Quiet :=
    quiet
  obtain ⟨-, replica, pending, delivered⟩ := drain_of_quiet taken
  exact (congrArg classState delivered).trans rfl

/-- Operations that do not ask for classes leave the state of the classes alone. -/
theorem classState_other (quiet : engine.Quiet) {operation : Operation}
    (other : operation.kind ≠ .classes) :
    (engine.perform drain operation).2.classState = engine.classState := by
  have stays : Composes fun first second : Engine =>
      first.Quiet → second.Quiet ∧ second.classState = first.classState := by
    refine ⟨fun _ quiet => ⟨quiet, rfl⟩, fun earlier later quiet => ?_⟩
    obtain ⟨middle, same⟩ := earlier quiet
    obtain ⟨last, same_later⟩ := later middle
    exact ⟨last, same_later.trans same⟩
  obtain ⟨styles, same⟩ := perform_other drain engine other
  rw [same]
  exact (stays.foldl (fun text _ engine quiet =>
    ⟨quiet_insertText quiet text.1 text.2, classState_insertText quiet text.1 text.2⟩)
      engine quiet).2

section Alike

variable (alike : second.classState = first.classState.renumber number)

include alike

theorem config_alike : second.config = first.config := congrArg ClassState.config alike

theorem theme_alike : second.theme = first.theme := congrArg ClassState.theme alike

theorem index_alike : second.index = first.index := congrArg ClassState.index alike

theorem memo_alike :
    second.memo = first.memo.map fun entry => ((number entry.1.1, entry.1.2), entry.2) :=
  congrArg ClassState.memo alike

theorem remembered?_alike (injective : Function.Injective number) (style : CompiledStyle)
    (key : SelectionKey) :
    second.remembered? (style.renumber number) key = first.remembered? style key := by
  have named (entry : (Nat × SelectionKey) × String) :
      (number entry.1.1, entry.1.2) = (number style.number, key) ↔
        entry.1 = (style.number, key) := by
    rw [Prod.mk.injEq, injective.eq_iff, ← Prod.mk.injEq]
  simp [remembered?, memo_alike alike, List.find?_map, Function.comp_def,
    CompiledStyle.renumber, named]

theorem remember_alike (style : CompiledStyle) (key : SelectionKey) (text : String) :
    (second.remember (style.renumber number) key text).classState =
      (first.remember style key text).classState.renumber number := by
  simp only [remember, classState, ClassState.renumber, List.map_cons, config_alike alike,
    theme_alike alike, index_alike alike, memo_alike alike]
  rfl

theorem declarations_alike (definition : StyleDefinition) (selection : VariantSelection)
    (override : Option StyleNode) :
    second.declarations definition selection override =
      first.declarations definition selection override := by
  simp only [declarations, vocabulary, config_alike alike, theme_alike alike]

theorem emitAll_alike (declarations : List AtomicDeclaration) (classes : List String) :
    (second.emitAll declarations classes).1 = (first.emitAll declarations classes).1 ∧
      (second.emitAll declarations classes).2.classState =
        (first.emitAll declarations classes).2.classState.renumber number := by
  induction declarations generalizing first second classes with
  | nil => exact ⟨rfl, alike⟩
  | cons declaration rest ih =>
    have emitted : (second.emit declaration).1 = (first.emit declaration).1 ∧
        (second.emit declaration).2.classState =
          (first.emit declaration).2.classState.renumber number := by
      unfold emit
      rw [index_alike alike]
      split <;>
        exact ⟨rfl, by simp only [classState, ClassState.renumber, config_alike alike,
          theme_alike alike, memo_alike alike]⟩
    obtain ⟨same_class, same_state⟩ := emitted
    simp only [emitAll, same_class]
    exact ih same_state _

variable (quiet : first.Quiet) (quiet_too : second.Quiet)

include quiet quiet_too

theorem drain_alike : second.drain.classState = first.drain.classState.renumber number := by
  obtain ⟨-, replica, pending, delivered⟩ := drain_of_quiet quiet
  obtain ⟨-, replica_too, pending_too, delivered_too⟩ := drain_of_quiet quiet_too
  rw [delivered, delivered_too]
  exact alike

theorem freshClass_alike (style : CompiledStyle) (selection : VariantSelection)
    (override : Option StyleNode) :
    (second.freshClass drain (style.renumber number) selection override).1 =
        (first.freshClass drain style selection override).1 ∧
      (second.freshClass drain (style.renumber number) selection override).2.classState =
        (first.freshClass drain style selection override).2.classState.renumber number := by
  have same := declarations_alike alike style.definition selection override
  cases found : first.declarations style.definition selection override with
  | error error =>
    have refused : second.freshClass drain (style.renumber number) selection override =
        (.error error, second) := freshClass_of_error (same.trans found)
    rw [freshClass_of_error found, refused]
    exact ⟨rfl, alike⟩
  | ok declarations =>
    have answered : second.freshClass drain (style.renumber number) selection override =
        (.ok (second.classText declarations), second.settled drain declarations) :=
      freshClass_of_ok (same.trans found)
    rw [freshClass_of_ok found, answered]
    obtain ⟨classes, emitted⟩ := emitAll_alike alike declarations []
    constructor
    · simp only [classText, classes]
    · apply drain_alike emitted
      · rwa [Quiet, replica_emitAll]
      · rwa [Quiet, replica_emitAll]

/-- Engines whose classes are in the same state answer the same classes. -/
theorem className_alike (injective : Function.Injective number) (style : CompiledStyle)
    (selection : VariantSelection) (override : Option StyleNode) :
    (second.className drain (style.renumber number) selection override).1 =
        (first.className drain style selection override).1 ∧
      (second.className drain (style.renumber number) selection override).2.classState =
        (first.className drain style selection override).2.classState.renumber number := by
  have fresh := freshClass_alike alike quiet quiet_too style
    (style.definition.normalize selection) override
  have asked : (style.renumber number).definition.normalize selection =
      style.definition.normalize selection := rfl
  cases override with
  | some node => exact fresh
  | none =>
    have remembered := remembered?_alike alike injective style
      (style.definition.normalize selection).key
    simp only [className, asked, remembered]
    cases first.remembered? style (style.definition.normalize selection).key with
    | some text => exact ⟨rfl, alike⟩
    | none =>
      obtain ⟨answer, state⟩ := fresh
      generalize second.freshClass drain (style.renumber number) _ none = theirs at answer state ⊢
      generalize first.freshClass drain style _ none = ours at answer state ⊢
      obtain ⟨told, before⟩ := ours
      obtain ⟨told_too, after⟩ := theirs
      obtain rfl : told_too = told := answer
      cases told_too with
      | error error => exact ⟨rfl, state⟩
      | ok text =>
        exact ⟨rfl, remember_alike state style _ text⟩

theorem perform_alike (injective : Function.Injective number) {operation : Operation}
    (asks : operation.kind = .classes) :
    (second.perform drain (operation.renumber number)).1 = (first.perform drain operation).1 ∧
      (second.perform drain (operation.renumber number)).2.classState =
        (first.perform drain operation).2.classState.renumber number := by
  cases operation with
  | className style selection override =>
    obtain ⟨answer, state⟩ :=
      className_alike alike quiet quiet_too injective style selection override
    exact ⟨congrArg (Except.map Answer.classes) answer, state⟩
  | render component props =>
    cases read : component.read props with
    | error error =>
      have read_too : (component.renumber number).read props = .error error := read
      simp only [Operation.renumber, perform, renderWith, read, read_too]
      exact ⟨rfl, alike⟩
    | ok reading =>
      have read_too : (component.renumber number).read props = .ok reading := read
      obtain ⟨answer, state⟩ := className_alike alike quiet quiet_too injective component.style
        reading.selection reading.override
      rw [Operation.renumber, perform, perform, renderWith_eq drain first read,
        renderWith_eq drain second read_too]
      exact ⟨congrArg (fun told => (Except.map _ told).map Answer.element) answer, state⟩
  | _ => cases asks

end Alike

/-- The operations of a run that ask for classes answer as they do without the others, on any engine
whose classes are in the same state. -/
theorem transcript_asks (injective : Function.Injective number) (operations : List Operation)
    (alike : second.classState = first.classState.renumber number) (quiet : first.Quiet)
    (quiet_too : second.Quiet) :
    let asking := (operations.filter (·.kind = .classes)).map (·.renumber number)
    (second.transcript drain asking).map (·.2) =
        ((first.transcript drain operations).filter (·.1.kind = .classes)).map (·.2) ∧
      (second.performAll drain asking).classState =
        (first.performAll drain operations).classState.renumber number := by
  induction operations generalizing first second with
  | nil => exact ⟨rfl, alike⟩
  | cons operation rest ih =>
    have still := quiet_perform quiet operation
    by_cases asks : operation.kind = .classes
    · obtain ⟨answer, state⟩ := perform_alike alike quiet quiet_too injective asks
      obtain ⟨answers, last⟩ := ih state still (quiet_perform quiet_too (operation.renumber number))
      simp only [List.filter_cons, asks, decide_true, if_true, List.map_cons, transcript, answer,
        answers, true_and]
      exact last
    · have same := classState_other quiet asks
      obtain ⟨answers, last⟩ := ih (alike.trans (same ▸ rfl)) still quiet_too
      simp only [List.filter_cons, asks, decide_false, transcript, answers, Bool.false_eq_true,
        if_false, true_and]
      exact last

end Engine

end AtomicCss
