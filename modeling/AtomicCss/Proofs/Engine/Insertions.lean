import AtomicCss.Proofs.Engine.Operations
import AtomicCss.Proofs.Engine.Order

/-!
What an engine inserts into its sheet.

Apart from its queue a sheet changes by insertions only: one for each rule of a class that is new,
in the order in which the classes are given out, and one for each text of a theme or a global style.
Rules of classes and texts come between one another as the calls do.
-/

namespace AtomicCss

namespace Sheet

/-- The sheet without what is queued. -/
def unqueued (sheet : Sheet) : Sheet := { sheet with pending := none }

theorem unqueued_take (sheet : Sheet) (insertion : Insertion) :
    (sheet.take insertion).2.unqueued = (sheet.unqueued.take insertion).2 := by
  by_cases seen : insertion.hash ∈ sheet.seen
  · have seen_unqueued : insertion.hash ∈ sheet.unqueued.seen := seen
    rw [take, take, insert_of_seen seen, insert_of_seen seen_unqueued]
  · have unseen : ¬ sheet.seen.contains insertion.hash = true := by simpa using seen
    have unseen_unqueued : ¬ sheet.unqueued.seen.contains insertion.hash = true := unseen
    rw [take, take, insert, insert, if_neg unseen, if_neg unseen_unqueued]
    rfl

theorem insertAll_append (sheet : Sheet) (first second : List Insertion) :
    sheet.insertAll (first ++ second) = (sheet.insertAll first).insertAll second :=
  List.foldl_append

end Sheet

/-- Whether an insertion goes behind all texts of themes and global styles. -/
def Insertion.late (insertion : Insertion) : Bool := 3 ≤ insertion.group.order

/-- How the rule of a class is inserted. -/
def AtomicRule.insertion (breakpoints : Breakpoints) (rule : AtomicRule) : Insertion :=
  ⟨rule.declaration.group, rule.declaration.rank breakpoints, rule.slot, rule.css⟩

/-- How a text is inserted. -/
def textInsertion (text : SheetGroup × String) : Insertion :=
  ⟨text.1, 0, Hash.content (Engine.textParts text.1 text.2), text.2⟩

theorem AtomicRule.late_insertion (breakpoints : Breakpoints) (rule : AtomicRule) :
    (rule.insertion breakpoints).late = true :=
  decide_eq_true rule.declaration.order_group

theorem late_textInsertion {text : SheetGroup × String} (early : text.1.order < 3) :
    (textInsertion text).late = false :=
  decide_eq_false (Nat.not_le.mpr early)

namespace Engine

/-- The second engine comes from the first by insertions: of the rules of its new classes, and of
texts. -/
structure Inserts (texts : List (SheetGroup × String)) (first second : Engine) : Prop where
  config : second.config = first.config
  theme : second.theme = first.theme
  inserted : ∃ fresh insertions, second.index.rules = fresh ++ first.index.rules ∧
    second.sheet.unqueued = first.sheet.unqueued.insertAll insertions ∧
    insertions.filter (·.late) = fresh.reverse.map (AtomicRule.insertion first.config.breakpoints) ∧
    insertions.filter (!·.late) = texts.map textInsertion

variable {first second third engine : Engine} {texts more : List (SheetGroup × String)}

/-- Nothing is inserted where neither the index nor the rules of the sheet change. -/
theorem inserts_of_same (config : second.config = first.config) (theme : second.theme = first.theme)
    (index : second.index = first.index) (sheet : second.sheet.unqueued = first.sheet.unqueued) :
    Inserts [] first second :=
  ⟨config, theme, [], [], by rw [index, List.nil_append], sheet, rfl, rfl⟩

theorem inserts_refl (engine : Engine) : Inserts [] engine engine := inserts_of_same rfl rfl rfl rfl

theorem Inserts.trans (earlier : Inserts texts first second) (later : Inserts more second third) :
    Inserts (texts ++ more) first third := by
  obtain ⟨config, theme, fresh, insertions, rules, sheet, classes, plain⟩ := earlier
  obtain ⟨config_later, theme_later, fresh_later, insertions_later, rules_later, sheet_later,
    classes_later, plain_later⟩ := later
  refine ⟨config_later.trans config, theme_later.trans theme, fresh_later ++ fresh,
    insertions ++ insertions_later, ?_, ?_, ?_, ?_⟩
  · rw [rules_later, rules, List.append_assoc]
  · rw [sheet_later, sheet, Sheet.insertAll_append]
  · rw [List.filter_append, classes, classes_later, config, List.reverse_append, List.map_append]
  · rw [List.filter_append, plain, plain_later, List.map_append]

theorem Inserts.then_nothing (earlier : Inserts texts first second)
    (later : Inserts [] second third) :
    Inserts texts first third :=
  List.append_nil texts ▸ earlier.trans later

theorem Inserts.seen (inserts : Inserts texts first second) :
    first.sheet.seen ⊆ second.sheet.seen := by
  obtain ⟨-, -, fresh, insertions, -, sheet, -, -⟩ := inserts
  intro hash member
  have kept := (Sheet.mem_seen_insertAll first.sheet.unqueued insertions hash).mpr (.inl member)
  rw [← sheet] at kept
  exact kept

theorem inserts_withDeclaration (engine : Engine) (slot : UInt64)
    (declaration : AtomicDeclaration) :
    Inserts [] engine (engine.withDeclaration slot declaration) := by
  have late :=
    AtomicRule.late_insertion engine.config.breakpoints (engine.index.nextRule slot declaration)
  refine ⟨rfl, rfl, [engine.index.nextRule slot declaration],
    [(engine.index.nextRule slot declaration).insertion engine.config.breakpoints], rfl, ?_, ?_, ?_⟩
  · exact Sheet.unqueued_take _ _
  · simp [late]
  · simp [late]

theorem inserts_emitAll (engine : Engine) (declarations : List AtomicDeclaration)
    (classes : List String) : Inserts [] engine (engine.emitAll declarations classes).2 := by
  induction declarations generalizing engine classes with
  | nil => exact inserts_refl engine
  | cons declaration rest ih =>
    have own : Inserts [] engine (engine.emit declaration).2 := by
      have emits := engine.emits_emit declaration
      generalize engine.emit declaration = answer at emits ⊢
      cases emits with
      | known _ => exact inserts_refl engine
      | next slot _ _ => exact inserts_withDeclaration engine slot declaration
    exact own.then_nothing (ih _ _)

theorem inserts_text (engine : Engine) {text : SheetGroup × String} (early : text.1.order < 3) :
    Inserts [text] engine { engine with sheet := (engine.sheet.take (textInsertion text)).2 } := by
  have plain := late_textInsertion early
  refine ⟨rfl, rfl, [], [textInsertion text], rfl, Sheet.unqueued_take _ _, ?_, ?_⟩
  · simp [plain]
  · simp [plain]

theorem inserts_replica (engine : Engine) (replica : Option Replica)
    (pending : Option (List Delivery)) :
    Inserts [] engine { engine with sheet := { engine.sheet with pending }, replica } :=
  inserts_of_same rfl rfl rfl rfl

/-- What holds of an engine that settled, and is not changed by remembering a class, holds after
asking. -/
theorem className_ends {settle : Settle Engine} {Ends : Engine → Prop} (style : CompiledStyle)
    (selection : VariantSelection) (override : Option StyleNode) (unchanged : Ends engine)
    (settled : ∀ declarations, Ends (engine.settled settle declarations))
    (noted : ∀ middle key text, Ends middle → Ends (middle.remember style key text)) :
    Ends (engine.className settle style selection override).2 := by
  have asked := engine.asked_className settle style selection override
  generalize engine.className settle style selection override = answer at asked ⊢
  cases asked with
  | remembered _ => exact unchanged
  | refused _ => exact unchanged
  | overridden _ => exact settled _
  | noted _ _ => exact noted _ _ _ (settled _)

/-- The second engine comes from the first by insertions of some texts and rules of classes. -/
def InsertsSome (first second : Engine) : Prop := ∃ texts, Inserts texts first second

theorem insertsSome_composes : Composes InsertsSome where
  refl engine := ⟨[], inserts_refl engine⟩
  trans := by
    rintro _ _ _ ⟨texts, earlier⟩ ⟨more, later⟩
    exact ⟨texts ++ more, earlier.trans later⟩

theorem insertsSome_holdsAcross {settle : Settle Engine}
    (settles : ∀ engine, InsertsSome engine (settle engine)) : HoldsAcross settle InsertsSome where
  toComposes := insertsSome_composes
  compiled _ _ := ⟨[], inserts_of_same rfl rfl rfl rfl⟩
  text engine group css early :=
    insertsSome_composes.trans ⟨[(group, css)], inserts_text engine early⟩ (settles _)
  asked engine style selection override _ := by
    apply className_ends style selection override (insertsSome_composes.refl engine)
    · intro declarations
      exact insertsSome_composes.trans ⟨[], inserts_emitAll engine declarations []⟩ (settles _)
    · intro middle key text inserts
      exact insertsSome_composes.trans inserts ⟨[], inserts_of_same rfl rfl rfl rfl⟩

theorem insertsSome_drain (engine : Engine) : InsertsSome engine engine.drain := by
  have changes : HoldsAcrossReplica InsertsSome :=
    fun engine replica pending => ⟨[], inserts_replica engine replica pending⟩
  exact related_drain (insertsSome_holdsAcross insertsSome_composes.refl) changes.delivery engine

section Quiet

theorem quiet_insertText (quiet : engine.Quiet) (group : SheetGroup) (css : String) :
    (engine.insertText drain group css).Quiet := by
  have taken :
      ({ engine with
          sheet := (engine.sheet.take (textInsertion (group, css))).2 } : Engine).Quiet :=
    quiet
  exact (drain_of_quiet taken).1

theorem quiet_className (quiet : engine.Quiet) (style : CompiledStyle)
    (selection : VariantSelection) (override : Option StyleNode) :
    (engine.className drain style selection override).2.Quiet := by
  apply className_ends style selection override quiet
  · intro declarations
    have emitted : (engine.emitAll declarations []).2.Quiet := by
      rwa [Quiet, replica_emitAll]
    exact (drain_of_quiet emitted).1
  · exact fun _ _ _ => id

theorem quiet_perform (quiet : engine.Quiet) (operation : Operation) :
    (engine.perform drain operation).2.Quiet := by
  by_cases asks : operation.kind = .classes
  · rcases perform_asks drain engine asks with same | ⟨style, selection, override, same⟩
    · rwa [same]
    · rw [same]
      exact quiet_className quiet style selection override
  · obtain ⟨styles, same⟩ := perform_other drain engine asks
    have stays : Composes fun first second : Engine => first.Quiet → second.Quiet :=
      ⟨fun _ => id, fun earlier later => later ∘ earlier⟩
    rw [same]
    exact stays.foldl (fun text _ engine quiet => quiet_insertText quiet text.1 text.2) engine quiet

theorem inserts_drain (quiet : engine.Quiet) : Inserts [] engine engine.drain := by
  obtain ⟨-, replica, pending, same⟩ := drain_of_quiet quiet
  rw [same]
  exact inserts_replica engine replica pending

theorem inserts_insertTexts (quiet : engine.Quiet) (early : ∀ text ∈ texts, text.1.order < 3) :
    Inserts texts engine (engine.insertTexts drain texts) := by
  induction texts generalizing engine with
  | nil => exact inserts_refl engine
  | cons text rest ih =>
    obtain ⟨own, others⟩ := List.forall_mem_cons.mp early
    have taken :
        ({ engine with sheet := (engine.sheet.take (textInsertion text)).2 } : Engine).Quiet :=
      quiet
    have inserted := (inserts_text engine own).then_nothing (inserts_drain taken)
    exact inserted.trans (ih (quiet_insertText quiet text.1 text.2) others)

theorem inserts_className (quiet : engine.Quiet) (style : CompiledStyle)
    (selection : VariantSelection) (override : Option StyleNode) :
    Inserts [] engine (engine.className drain style selection override).2 := by
  apply className_ends style selection override (inserts_refl engine)
  · intro declarations
    have emitted : (engine.emitAll declarations []).2.Quiet := by
      rwa [Quiet, replica_emitAll]
    exact (inserts_emitAll engine declarations []).then_nothing (inserts_drain emitted)
  · intro middle key text inserts
    exact inserts.then_nothing (inserts_of_same rfl rfl rfl rfl)

/-- An operation inserts its texts and the rules of new classes. -/
theorem inserts_perform (quiet : engine.Quiet) {operation : Operation}
    (early : ∀ text ∈ engine.texts operation, text.1.order < 3) :
    Inserts (engine.texts operation) engine (engine.perform drain operation).2 := by
  by_cases asks : operation.kind = .classes
  · have no_texts : engine.texts operation = [] := by
      cases operation <;> first | rfl | cases asks
    rw [no_texts]
    rcases perform_asks drain engine asks with same | ⟨style, selection, override, same⟩
    · rw [same]
      exact inserts_refl engine
    · rw [same]
      exact inserts_className quiet style selection override
  · obtain ⟨styles, same⟩ := perform_other drain engine asks
    rw [same]
    exact (inserts_insertTexts quiet early).then_nothing (inserts_of_same rfl rfl rfl rfl)

end Quiet

end Engine

end AtomicCss
