import AtomicCss.Proofs.Engine.Delivery
import AtomicCss.Proofs.Engine.Insertions
import AtomicCss.Proofs.Engine.Memory

/-!
Operations that are performed again.

What an operation adds is found again: a class by its declaration, a text by its hash, and what a
style was asked for in its memory. Nothing of it ever leaves an engine. So an operation that
succeeded once succeeds later with the same answer, also on a style that was compiled anew, and
inserts and delivers nothing.
-/

namespace AtomicCss

namespace Operation

/-- No selection that the operation asks a style for names a breakpoint twice. -/
def NamesOnce : Operation → Prop
  | className _ selection _ => selection.NamesOnce
  | render component props =>
    ∀ reading, component.read props = .ok reading → reading.selection.NamesOnce
  | _ => True

end Operation

namespace Engine

variable {engine after later : Engine} {operation : Operation} {answer : Answer}

theorem known_grow {first second : Engine} (grows : Grows first second)
    (known : operation.Known first) : operation.Known second := by
  cases operation with
  | cssComposed parts node => exact fun part member => grows.style? (known part member)
  | extend component node => exact grows.style? known
  | className style selection override => exact grows.style? known
  | render component props => exact grows.style? known
  | apply style =>
    obtain ⟨node, found⟩ := known
    exact ⟨node, (globalCss_of_same grows.config grows.theme node).trans found⟩
  | _ => trivial

/-- The texts of an operation go before the rules of all classes. -/
theorem order_texts (known : operation.Known engine) :
    ∀ text ∈ engine.texts operation, text.1.order < 3 := by
  cases operation with
  | apply style =>
    obtain ⟨node, found⟩ := known
    exact order_globalCss found
  | keyframes node =>
    simp only [texts]
    split <;> simp [SheetGroup.order]
  | createTheme name overrides =>
    simp only [texts]
    split
    · split <;> simp [SheetGroup.order]
    · simp
  | _ => simp [texts]

section Idle

/-- Nothing is queued, and draining leaves the engine as it is. -/
def Idle (engine : Engine) : Prop := engine.replica = none ∨ engine.Drained

theorem drain_of_none (none_kept : engine.replica = none) : engine.drain = engine := by
  simp only [drain, none_kept]

theorem replica_drain_of_none (none_kept : engine.replica = none) :
    engine.drain.replica = none := by
  rw [drain_of_none none_kept, none_kept]

theorem Idle.drain (idle : engine.Idle) : engine.drain = engine := by
  rcases idle with none_kept | ⟨-, pending⟩
  · exact drain_of_none none_kept
  · unfold Engine.drain
    split
    · next replica _ =>
      cases replica.script with
      | nil =>
        simp only [drainWith, pending, deliverAll, List.foldl_nil]
        rw [← pending]
      | cons requests script => simp [drainWith, Sheet.nextPending, pending]
    · rfl

theorem none_holdsAcross :
    HoldsAcross Engine.drain fun first second => first.replica = none → second.replica = none where
  refl _ := id
  trans earlier later := later ∘ earlier
  compiled _ _ := id
  text engine group css _ none_kept := replica_drain_of_none none_kept
  asked engine style selection override _ none_kept := by
    apply @className_ends engine Engine.drain (fun after => after.replica = none) _ _ _ none_kept
    · intro declarations
      exact replica_drain_of_none ((replica_emitAll engine declarations []).trans none_kept)
    · exact fun _ _ _ => id

theorem idle_holdsAcross :
    HoldsAcross Engine.drain fun first second => first.Idle → second.Idle where
  refl _ := id
  trans earlier later := later ∘ earlier
  compiled engine definition :=
    Or.imp (none_holdsAcross.compiled engine definition)
      (drained_holdsAcross.compiled engine definition)
  text engine group css early :=
    Or.imp (none_holdsAcross.text engine group css early)
      (drained_holdsAcross.text engine group css early)
  asked engine style selection override known :=
    Or.imp (none_holdsAcross.asked engine style selection override known)
      (drained_holdsAcross.asked engine style selection override known)

theorem idle_start (config : Config) (replicated : Bool) (script : List (List Request)) :
    ((start Engine.drain config replicated).withScript script).Idle := by
  cases replicated with
  | false =>
    left
    have started : (start Engine.drain config false).replica = none := by
      simp only [start]
      split
      · rfl
      · exact none_holdsAcross.text _ .themed _ (by decide) rfl
    rw [withScript, started]
    rfl
  | true => exact .inr ((drained_start config).withScript script)

end Idle

section Texts

variable {texts : List (SheetGroup × String)}

theorem insertTexts_of_seen {settle : Settle Engine} (idle : settle engine = engine)
    (seen : ∀ text ∈ texts, (textInsertion text).hash ∈ engine.sheet.seen) :
    engine.insertTexts settle texts = engine := by
  induction texts with
  | nil => rfl
  | cons text rest ih =>
    obtain ⟨own, others⟩ := List.forall_mem_cons.mp seen
    have refused : engine.insertText settle text.1 text.2 = engine := by
      have came : Hash.content (textParts text.1 text.2) ∈ engine.sheet.seen := own
      rw [insertText, Sheet.insert_of_seen came]
      exact idle
    rw [insertTexts, List.foldl_cons, refused]
    exact ih others

theorem seen_insertTexts (engine : Engine) (early : ∀ text ∈ texts, text.1.order < 3) :
    ∀ text ∈ texts, (textInsertion text).hash ∈ (engine.insertTexts drain texts).sheet.seen := by
  induction texts generalizing engine with
  | nil => exact List.forall_mem_nil _
  | cons text rest ih =>
    obtain ⟨own, others⟩ := List.forall_mem_cons.mp early
    have inserts := insertsSome_holdsAcross insertsSome_drain
    intro other member
    rcases List.mem_cons.mp member with rfl | later
    · -- The text is seen when it was taken, and stays seen while the others are inserted.
      have taken : (textInsertion other).hash ∈ (engine.sheet.take (textInsertion other)).2.seen :=
        (Sheet.mem_seen_take _ _).mpr (.inr rfl)
      obtain ⟨_, drained⟩ := insertsSome_drain
        { engine with sheet := (engine.sheet.take (textInsertion other)).2 }
      obtain ⟨_, rest_inserted⟩ := inserts.foldl
        (fun text member engine => inserts.text engine text.1 text.2 (others text member))
        (engine.insertText drain other.1 other.2)
      exact rest_inserted.seen (drained.seen taken)
    · exact ih (engine.insertText drain text.1 text.2) others other later

end Texts

section Again

variable {style : CompiledStyle} {selection : VariantSelection} {override : Option StyleNode}

theorem Filed.class_unique (filed : engine.Filed) {first second : String}
    {declaration : AtomicDeclaration} (left : engine.Has first declaration)
    (right : engine.Has second declaration) : first = second := by
  obtain ⟨rule, inside, rfl, declares⟩ := left
  obtain ⟨other, within, rfl, declares_too⟩ := right
  rw [List.inj_on_of_nodup_map filed.probed.declarations inside within
    (declares.trans declares_too.symm)]

/-- A style whose declarations have classes answers these, whether it remembers them or not. -/
theorem Filed.className_of_has (filed : engine.Filed) {settle : Settle Engine}
    (known : engine.style? style.number = some style)
    (once : (style.definition.normalize selection).NamesOnce)
    {declarations : List AtomicDeclaration} {classes : List String}
    (found : engine.declarations style.definition (style.definition.normalize selection) override =
      .ok declarations)
    (given : List.Forall₂ engine.Has classes declarations) (idle : settle engine = engine) :
    ∃ memo, engine.className settle style selection override =
      (.ok (" ".intercalate classes), { engine with memo }) := by
  have fresh := filed.freshClass_of_has settle found given
  rw [idle] at fresh
  cases override with
  | some node => exact ⟨engine.memo, by simp only [className, fresh]⟩
  | none =>
    cases memo : engine.remembered? style (style.definition.normalize selection).key with
    | none => exact ⟨_, by simp only [className, memo, fresh]; rfl⟩
    | some text =>
      obtain ⟨definition, other, others, names, listed, keyed, found_other, rfl, given_other⟩ :=
        filed.memo _ _ _ (mem_memo_of_remembered? memo)
      obtain rfl := Option.some.inj ((definition_of_style? known).symm.trans listed)
      obtain ⟨node, resolved, flat⟩ := bind_eq_ok.mp found_other
      have found_again : engine.declarations style.definition
          (style.definition.normalize selection) none = .ok others :=
        bind_eq_ok.mpr ⟨node, resolve_of_key_eq once keyed.symm resolved, flat⟩
      obtain rfl := Except.ok.inj (found.symm.trans found_again)
      have unique : Relator.LeftUnique engine.Has :=
        fun _ _ _ left right => filed.class_unique left right
      have same : names = classes := unique.forall₂ given_other given
      exact ⟨engine.memo, by simp only [className, memo, same]⟩

theorem className_again {text : String} {number : Nat → Nat} (sorted : engine.sheet.Sorted)
    (filed : engine.Filed) (known : engine.style? style.number = some style)
    (once : selection.NamesOnce)
    (answered : engine.className drain style selection override = (.ok text, after))
    (grows : Grows after later) (filed_later : later.Filed)
    (known_later : later.style? (style.renumber number).number = some (style.renumber number))
    (idle : later.drain = later) :
    ∃ memo, later.className drain (style.renumber number) selection override =
      (.ok text, { later with memo }) := by
  have once_named := namesOnce_normalize style.definition once
  obtain ⟨declarations, classes, found, rfl, given⟩ :=
    answered_of_memo sorted filed.numbered filed.memo known once_named answered
  have first := (advances_className advances_drain engine selection override known sorted).1
  rw [answered] at first
  have found_later := ((grows_composes.trans first grows).declarations style.definition
    (style.definition.normalize selection) override).trans found
  exact filed_later.className_of_has known_later once_named found_later
    (given.imp fun _ _ => Has.grow grows) idle

end Again

theorem texts_renumber (engine : Engine) (number : Nat → Nat) (operation : Operation) :
    engine.texts (operation.renumber number) = engine.texts operation := by
  cases operation <;> rfl

/-- What an engine retains of an operation that asks for no classes: its answer and its texts. -/
structure Retains (engine : Engine) (operation : Operation) (answer : Answer) : Prop where
  other : operation.kind ≠ .classes
  answers : (engine.perform drain operation).1 = .ok answer
  seen : ∀ text ∈ engine.texts operation, (textInsertion text).hash ∈ engine.sheet.seen

theorem Retains.grow {first second : Engine} (retains : first.Retains operation answer)
    (config : second.config = first.config) (theme : second.theme = first.theme)
    (seen : first.sheet.seen ⊆ second.sheet.seen) : second.Retains operation answer where
  other := retains.other
  answers := by
    have same := answer_of_same config theme retains.other drain drain id
    rw [Operation.renumber_id] at same
    exact same.trans retains.answers
  seen text member := seen (retains.seen text (texts_of_same config theme operation ▸ member))

theorem retains_of_performed (known : operation.Known engine) (other : operation.kind ≠ .classes)
    (answered : engine.perform drain operation = (.ok answer, after)) :
    after.Retains operation answer := by
  obtain ⟨styles, performed⟩ := perform_other drain engine other
  obtain ⟨_, inserts⟩ := (insertsSome_holdsAcross insertsSome_drain).perform known
  rw [answered] at performed inserts
  have answer_again := answer_of_same inserts.config inserts.theme other drain drain id
  rw [Operation.renumber_id, answered] at answer_again
  refine ⟨other, answer_again, ?_⟩
  intro text member
  rw [texts_of_same inserts.config inserts.theme operation] at member
  have sheet : after.sheet = (engine.insertTexts drain (engine.texts operation)).sheet :=
    congrArg (·.sheet) performed
  rw [sheet]
  exact seen_insertTexts engine (order_texts known) text member

/-- What is retained is answered again, also on styles that are kept under other numbers. -/
theorem Retains.again (retains : engine.Retains operation answer) (idle : engine.drain = engine)
    (number : Nat → Nat) :
    ∃ styles, engine.perform drain (operation.renumber number) =
      (.ok answer, { engine with styles }) := by
  have answer_again :
      (engine.perform drain (operation.renumber number)).1 = (engine.perform drain operation).1 :=
    answer_of_same rfl rfl retains.other drain drain number
  rw [retains.answers] at answer_again
  obtain ⟨styles, performed⟩ :=
    perform_other drain engine
      (by simpa using retains.other : (operation.renumber number).kind ≠ .classes)
  rw [texts_renumber, insertTexts_of_seen idle retains.seen] at performed
  exact ⟨styles, Prod.ext answer_again performed⟩

/-- An operation that asks for classes answers them again. -/
theorem classes_again (number : Nat → Nat) (sorted : engine.sheet.Sorted) (filed : engine.Filed)
    (known : operation.Known engine) (once : operation.NamesOnce) (asks : operation.kind = .classes)
    (answered : engine.perform drain operation = (.ok answer, after)) (grows : Grows after later)
    (filed_later : later.Filed) (known_later : (operation.renumber number).Known later)
    (idle : later.drain = later) :
    ∃ memo, later.perform drain (operation.renumber number) =
      (.ok answer, { later with memo }) := by
  cases operation with
  | className style selection override =>
    obtain ⟨told, rfl⟩ := told_eq answered
    obtain ⟨text, asked, rfl⟩ := ok_of_map_eq_ok told
    obtain ⟨memo, again⟩ :=
      className_again sorted filed known once
        (className_eq asked) grows filed_later known_later idle
    refine ⟨memo, ?_⟩
    rw [Operation.renumber, perform, again]
    rfl
  | render component props =>
    cases read : component.read props with
    | error error => simp [perform, renderWith, read, Except.map] at answered
    | ok reading =>
      rw [perform, renderWith_eq drain engine read] at answered
      obtain ⟨told, rfl⟩ := told_eq answered
      obtain ⟨rendered, asked, rfl⟩ := ok_of_map_eq_ok told
      obtain ⟨text, classes, rfl⟩ := ok_of_map_eq_ok asked
      obtain ⟨memo, again⟩ := className_again sorted filed known (once reading read)
        (className_eq classes) grows filed_later known_later idle
      have read_again : (component.renumber number).read props = .ok reading := read
      refine ⟨memo, ?_⟩
      rw [Operation.renumber, perform, renderWith_eq drain later read_again]
      exact congrArg _ (congrArg _ again)
  | _ => cases asks

/-- Whatever is called in between, an operation that succeeded succeeds again with the same answer,
on the same styles or on others with the same definitions; no rule is added, and nothing is
delivered. -/
theorem repeated_adds_nothing {config : Config} {replicated : Bool} {script : List (List Request)}
    {requests more : List Request}
    (reached : engine = ((start drain config replicated).withScript script).run requests)
    (known : operation.Known engine) (once : operation.NamesOnce)
    (answered : engine.perform drain operation = (.ok answer, after))
    (goes_on : later = after.run more) (fits : later.Fits) :
    operation.Known later ∧
      ∀ number, (operation.renumber number).Known later →
        ∃ last, later.perform drain (operation.renumber number) = (.ok answer, last) ∧
          last.sheet = later.sheet ∧ last.cssText = later.cssText ∧ last.index = later.index ∧
            last.replica = later.replica := by
  have continues := reached ▸ continues_run config replicated script requests
  have first : Continues engine after := by
    have performed := (continues_holdsAcross continues_drain).perform known
    rwa [answered] at performed
  have rest : Continues after later :=
    goes_on ▸ (continues_holdsAcross continues_drain).run after more
  have to_after := continues_composes.trans continues first
  obtain ⟨-, sorted, -, tidy, -⟩ := continues.reached
  obtain ⟨-, after_sorted, -⟩ := to_after.reached
  obtain ⟨-, -, -, tidy_later, -⟩ := (continues_composes.trans to_after rest).reached
  have grows_first := (first.1 sorted).1
  have grows := (rest.1 after_sorted).1
  have whole := grows_composes.trans grows_first grows
  have fits_engine := (first.2 sorted).appends.fits ((rest.2 after_sorted).appends.fits fits)
  have inserts : InsertsSome after later :=
    goes_on ▸ (insertsSome_holdsAcross insertsSome_drain).run after more
  have idle : later.drain = later := by
    have started := idle_holdsAcross.run _ requests (idle_start config replicated script)
    have performed := idle_holdsAcross.perform known (reached ▸ started)
    rw [answered] at performed
    exact (goes_on ▸ idle_holdsAcross.run after more performed : later.Idle).drain
  refine ⟨known_grow whole known, ?_⟩
  intro number known_later
  by_cases asks : operation.kind = .classes
  · obtain ⟨memo, again⟩ :=
      classes_again number sorted (tidy fits_engine) known once asks answered grows
      (tidy_later fits) known_later idle
    exact ⟨_, again, rfl, rfl, rfl, rfl⟩
  · obtain ⟨_, inserted⟩ := inserts
    have retains :=
      (retains_of_performed known asks answered).grow grows.config grows.theme inserted.seen
    obtain ⟨styles, again⟩ := retains.again idle number
    exact ⟨_, again, rfl, rfl, rfl, rfl⟩

/-- A style that is compiled again answers the class that it was given, after keyframes came in
between. -/
theorem recompiled_adds_nothing :
    let config : Config := ⟨"x", .empty, [], .empty, .empty⟩
    let node : StyleNode := [("color", .text "red")]
    let style : CompiledStyle := ⟨0, [("color", .text "red")], [], [], []⟩
    let asks : Operation := .className style [] none
    let engine := ((start drain config true).withScript []).run [.compile node]
    let after := (engine.perform drain asks).2
    let later := after.run [.keyframes [("from", .node [("opacity", .text "0")])], .compile node]
    engine.perform drain asks = (.ok (.classes "x-c-0"), after) ∧
      ∃ last, later.perform drain (asks.renumber fun _ => 1) = (.ok (.classes "x-c-0"), last) ∧
        last.sheet = later.sheet ∧ last.cssText = later.cssText ∧ last.index = later.index ∧
          last.replica = later.replica := by
  intro config node style asks engine after later
  have answer : (engine.className drain style [] none).1 = .ok "x-c-0" := by decide +kernel
  have answered : engine.perform drain asks = (.ok (.classes "x-c-0"), after) :=
    Prod.ext (congrArg (Except.map Answer.classes) answer) rfl
  have known : asks.Known engine := (rfl : engine.style? 0 = some style)
  let middle := after.run [.keyframes [("from", .node [("opacity", .text "0")])]]
  have stands : middle.index.size ≤ 1 ∧ middle.styles.length = 1 ∧
      middle.check style.definition = .ok () := by
    decide +kernel
  obtain ⟨few, count, checked⟩ := stands
  have compiled : later = { middle with styles := middle.styles ++ [style.definition] } := by
    have parsed : StyleDefinition.parse node = .ok style.definition := rfl
    change (middle.css node).2 = _
    simp only [css, parsed, compile, checked]
  have fits : later.Fits := by
    rw [compiled]
    exact Nat.le_trans few (by decide)
  have recompiled : later.style? 1 = some (style.renumber fun _ => 1) := by
    have found := middle.style?_compiled style.definition
    rw [count, ← compiled] at found
    exact found
  have once : asks.NamesOnce := fun _ _ member => absurd member List.not_mem_nil
  obtain ⟨-, again⟩ := repeated_adds_nothing (rfl : engine = _) known once answered rfl fits
  exact ⟨answered, again _ recompiled⟩

end Engine

end AtomicCss
