import AtomicCss.Engine.Replica
import AtomicCss.Proofs.Basic

/-!
What every call does to an engine.

A call compiles definitions, inserts texts, asks for classes, and lets queued rules be delivered; it
does nothing else. So a relation between engines that composes and holds across these four holds
across every call, and across every run of calls.
-/

namespace AtomicCss

theorem GlobalRule.Draft.order_finish (draft : GlobalRule.Draft) : draft.finish.1.order < 3 := by
  cases draft <;> simp [finish, SheetGroup.order]

/-- The texts of global styles go before all atomic rules. -/
theorem order_globalRules {rules : List FlatRule} {text : SheetGroup × String}
    (member : text ∈ globalRules rules) : text.1.order < 3 := by
  obtain ⟨draft, -, rfl⟩ := List.mem_map.mp member
  exact draft.order_finish

namespace Engine

def classText (engine : Engine) (declarations : List AtomicDeclaration) : String :=
  " ".intercalate (engine.emitAll declarations []).1

def settled (settle : Settle Engine) (engine : Engine) (declarations : List AtomicDeclaration) :
    Engine :=
  settle (engine.emitAll declarations []).2

/-- The ways in which asking for a class may end; `selection` names declared groups only. -/
inductive Asked (settle : Settle Engine) (engine : Engine) (style : CompiledStyle)
    (selection : VariantSelection) :
    Option StyleNode → Except StyleError String × Engine → Prop where
  | remembered {text} : engine.remembered? style selection.key = some text →
      Asked settle engine style selection none (.ok text, engine)
  | refused {override error} :
      engine.declarations style.definition selection override = .error error →
      Asked settle engine style selection override (.error error, engine)
  | overridden {override declarations} :
      engine.declarations style.definition selection (some override) = .ok declarations →
      Asked settle engine style selection (some override)
        (.ok (engine.classText declarations), engine.settled settle declarations)
  | noted {declarations} : engine.remembered? style selection.key = none →
      engine.declarations style.definition selection none = .ok declarations →
      Asked settle engine style selection none
        (.ok (engine.classText declarations),
          (engine.settled settle declarations).remember style selection.key
            (engine.classText declarations))

theorem freshClass_of_ok {settle : Settle Engine} {engine : Engine} {style : CompiledStyle}
    {selection : VariantSelection} {override : Option StyleNode}
    {declarations : List AtomicDeclaration}
    (found : engine.declarations style.definition selection override = .ok declarations) :
    engine.freshClass settle style selection override =
      (.ok (engine.classText declarations), engine.settled settle declarations) := by
  simp [freshClass, found, classText, settled]

theorem freshClass_of_error {settle : Settle Engine} {engine : Engine} {style : CompiledStyle}
    {selection : VariantSelection} {override : Option StyleNode} {error : StyleError}
    (found : engine.declarations style.definition selection override = .error error) :
    engine.freshClass settle style selection override = (.error error, engine) := by
  simp [freshClass, found]

theorem asked_className (settle : Settle Engine) (engine : Engine) (style : CompiledStyle)
    (selection : VariantSelection) (override : Option StyleNode) :
    Asked settle engine style (style.definition.normalize selection) override
      (engine.className settle style selection override) := by
  cases override with
  | some node =>
    simp only [className]
    cases found : engine.declarations style.definition (style.definition.normalize selection)
        (some node) with
    | error error =>
      rw [freshClass_of_error found]
      exact .refused found
    | ok declarations =>
      rw [freshClass_of_ok found]
      exact .overridden found
  | none =>
    simp only [className]
    cases memo : engine.remembered? style (style.definition.normalize selection).key with
    | some text => exact .remembered memo
    | none =>
      cases found : engine.declarations style.definition (style.definition.normalize selection)
          none with
      | error error =>
        rw [freshClass_of_error found]
        exact .refused found
      | ok declarations =>
        rw [freshClass_of_ok found]
        exact .noted memo found

theorem className_of_new {settle : Settle Engine} {engine : Engine} {style : CompiledStyle}
    {selection : VariantSelection} {declarations : List AtomicDeclaration}
    (new : engine.remembered? style (style.definition.normalize selection).key = none)
    (found : engine.declarations style.definition (style.definition.normalize selection) none =
      .ok declarations) :
    engine.className settle style selection none =
      (.ok (engine.classText declarations),
        (engine.settled settle declarations).remember style
          (style.definition.normalize selection).key
          (engine.classText declarations)) := by
  simp [className, new, freshClass_of_ok found]

theorem className_eq {settle : Settle Engine} {engine : Engine} {style : CompiledStyle}
    {selection : VariantSelection} {override : Option StyleNode} {text : String}
    (answered : (engine.className settle style selection override).1 = .ok text) :
    engine.className settle style selection override =
      (.ok text, (engine.className settle style selection override).2) :=
  Prod.ext answered rfl

theorem remembered?_remember (engine : Engine) (style : CompiledStyle) (key : SelectionKey)
    (text : String) : (engine.remember style key text).remembered? style key = some text := by
  simp [remember, remembered?]

structure Composes (Related : Engine → Engine → Prop) : Prop where
  refl : ∀ engine, Related engine engine
  trans : ∀ {first second third}, Related first second → Related second third → Related first third

variable {Related : Engine → Engine → Prop} {settle : Settle Engine}

theorem Composes.foldl {α : Type} (composes : Composes Related) {step : Engine → α → Engine}
    {items : List α} (related : ∀ item ∈ items, ∀ engine, Related engine (step engine item))
    (engine : Engine) : Related engine (items.foldl step engine) := by
  induction items generalizing engine with
  | nil => exact composes.refl engine
  | cons item rest ih =>
    obtain ⟨own, others⟩ := List.forall_mem_cons.mp related
    exact composes.trans (own engine) (ih others _)

/-- A relation that holds across the parts of calls, each settled by `settle`. -/
structure HoldsAcross (settle : Settle Engine) (Related : Engine → Engine → Prop) : Prop
    extends Composes Related where
  compiled : ∀ engine definition,
    Related engine { engine with styles := engine.styles ++ [definition] }
  text : ∀ engine (group : SheetGroup) css, group.order < 3 →
    Related engine (engine.insertText settle group css)
  asked : ∀ engine style selection override, engine.style? style.number = some style →
    Related engine (engine.className settle style selection override).2

theorem style?_compiled (engine : Engine) (definition : StyleDefinition) :
    ({ engine with styles := engine.styles ++ [definition] } : Engine).style? engine.styles.length =
      some ⟨engine.styles.length, definition⟩ := by
  simp [style?]

theorem compile_cases (engine : Engine) (definition : StyleDefinition) :
    (∃ error, engine.compile definition = (.error error, engine)) ∨
      engine.compile definition =
        (.ok ⟨engine.styles.length, definition⟩,
          { engine with styles := engine.styles ++ [definition] }) := by
  unfold compile
  split
  · exact .inl ⟨_, rfl⟩
  · exact .inr rfl

theorem css_cases (engine : Engine) (node : StyleNode) :
    (∃ error, engine.css node = (.error error, engine)) ∨
      ∃ definition, engine.css node =
        (.ok ⟨engine.styles.length, definition⟩,
          { engine with styles := engine.styles ++ [definition] }) := by
  unfold css
  split
  · exact .inl ⟨_, rfl⟩
  · next definition _ =>
    rcases engine.compile_cases definition with refused | compiled
    · exact .inl refused
    · exact .inr ⟨definition, compiled⟩

theorem HoldsAcross.compile (holds : HoldsAcross settle Related) (engine : Engine)
    (definition : StyleDefinition) : Related engine (engine.compile definition).2 := by
  rcases engine.compile_cases definition with ⟨error, refused⟩ | compiled
  · rw [refused]
    exact holds.refl engine
  · rw [compiled]
    exact holds.compiled engine definition

theorem HoldsAcross.cssComposed (holds : HoldsAcross settle Related) (engine : Engine)
    (parts : List CompiledStyle) (node : StyleNode) :
    Related engine (engine.cssComposed parts node).2 := by
  unfold Engine.cssComposed
  split
  · exact holds.refl engine
  · exact holds.compile engine _

theorem HoldsAcross.css (holds : HoldsAcross settle Related) (engine : Engine) (node : StyleNode) :
    Related engine (engine.css node).2 := by
  unfold Engine.css
  split
  · exact holds.refl engine
  · exact holds.compile engine _

theorem HoldsAcross.classOf (holds : HoldsAcross settle Related) (engine : Engine)
    (node : StyleNode) (selection : VariantSelection) (override : Option StyleNode) :
    Related engine (engine.serve settle (.classOf node selection override)) := by
  rcases engine.css_cases node with ⟨error, refused⟩ | ⟨definition, compiled⟩
  · simpa [serve, refused] using holds.refl engine
  · simp only [serve, compiled]
    exact holds.trans (holds.compiled engine definition)
      (holds.asked _ _ selection override (engine.style?_compiled definition))

theorem HoldsAcross.renderWith (holds : HoldsAcross settle Related) (engine : Engine)
    (component : Component) (props : List (String × Json))
    (known : engine.style? component.style.number = some component.style) :
    Related engine (engine.renderWith settle component props).2 := by
  unfold Engine.renderWith
  split
  · exact holds.refl engine
  · next reading _ =>
    have asked := holds.asked engine component.style reading.selection reading.override known
    split <;> next answer => simpa [answer] using asked

theorem HoldsAcross.apply (holds : HoldsAcross settle Related) (engine : Engine)
    {style : GlobalStyle} (before : ∀ text ∈ style.rules, text.1.order < 3) :
    Related engine (engine.apply settle style) :=
  holds.foldl (fun text member engine =>
    holds.text engine text.1 text.2 (before text member)) engine

theorem globalCss_eq_ok {engine : Engine} {node : StyleNode} {style : GlobalStyle}
    (found : engine.globalCss node = .ok style) :
    ∃ rules, flatten engine.vocabulary .global node = .ok rules ∧
      style.rules = globalRules rules := by
  obtain ⟨rules, flat, last⟩ := bind_eq_ok.mp found
  obtain rfl := Except.ok.inj last
  exact ⟨rules, flat, rfl⟩

theorem order_globalCss {engine : Engine} {node : StyleNode} {style : GlobalStyle}
    (found : engine.globalCss node = .ok style) : ∀ text ∈ style.rules, text.1.order < 3 := by
  obtain ⟨rules, -, same⟩ := globalCss_eq_ok found
  rw [same]
  exact fun text member => order_globalRules member

theorem HoldsAcross.applyGlobal (holds : HoldsAcross settle Related) (engine : Engine)
    (node : StyleNode) : Related engine (engine.serve settle (.applyGlobal node)) := by
  simp only [Engine.serve]
  split
  · next style found => exact holds.apply engine (order_globalCss found)
  · exact holds.refl engine

theorem HoldsAcross.keyframes (holds : HoldsAcross settle Related) (engine : Engine)
    (node : StyleNode) : Related engine (engine.keyframes settle node).2 := by
  unfold Engine.keyframes
  split
  · exact holds.refl engine
  · exact holds.text engine _ _ (by decide)

theorem HoldsAcross.createTheme (holds : HoldsAcross settle Related) (engine : Engine)
    (name : Option String) (overrides : ScaleMap) :
    Related engine (engine.createTheme settle name overrides).2 := by
  unfold Engine.createTheme
  split
  · exact holds.refl engine
  · split
    · exact holds.refl engine
    · exact holds.text engine _ _ (by decide)

theorem number_style? {engine : Engine} {number : Nat} {style : CompiledStyle}
    (found : engine.style? number = some style) : engine.style? style.number = some style := by
  obtain ⟨definition, -, rfl⟩ := Option.map_eq_some_iff.mp found
  exact found

/-- What holds across the parts of calls holds across every call. -/
theorem HoldsAcross.serve (holds : HoldsAcross settle Related) (engine : Engine)
    (request : Request) :
    Related engine (engine.serve settle request) := by
  cases request with
  | compile node => exact holds.css engine node
  | compose parts node =>
    simp only [Engine.serve]
    split
    · exact holds.cssComposed engine _ node
    · exact holds.refl engine
  | classOfStyle number selection override =>
    simp only [Engine.serve]
    split
    · next style found => exact holds.asked engine style selection override (number_style? found)
    · exact holds.refl engine
  | classOf node selection override => exact holds.classOf engine node selection override
  | render element number props =>
    simp only [Engine.serve]
    split
    · next style found => exact holds.renderWith engine ⟨element, style⟩ props (number_style? found)
    · exact holds.refl engine
  | applyGlobal node => exact holds.applyGlobal engine node
  | keyframes node => exact holds.keyframes engine node
  | theme name overrides => exact holds.createTheme engine name overrides

theorem HoldsAcross.run (holds : HoldsAcross drain Related) (engine : Engine)
    (requests : List Request) : Related engine (engine.run requests) :=
  holds.foldl (fun request _ engine => holds.serve engine request) engine

/-- A relation that holds across the delivery of the oldest queued rule. -/
def HoldsAcrossDelivery (Related : Engine → Engine → Prop) : Prop :=
  ∀ engine delivery sheet script, engine.sheet.nextPending = (some delivery, sheet) →
    Related engine ({ engine with sheet }.deliver delivery script)

theorem nextPending_of_cons {sheet : Sheet} {delivery : Delivery} {rest : List Delivery}
    (pending : sheet.pending = some (delivery :: rest)) :
    sheet.nextPending = (some delivery, { sheet with pending := some rest }) := by
  simp [Sheet.nextPending, pending]

theorem related_deliverAll (composes : Composes Related) (delivers : HoldsAcrossDelivery Related)
    {queue : List Delivery} {engine : Engine} (pending : engine.sheet.pending = some queue) :
    Related engine (engine.deliverAll queue) := by
  induction queue generalizing engine with
  | nil =>
    have same : engine.deliverAll [] = engine := by
      simp only [deliverAll, List.foldl_nil, ← pending]
    rw [same]
    exact composes.refl engine
  | cons delivery rest ih =>
    have step := delivers engine delivery _ [] (nextPending_of_cons pending)
    exact composes.trans step (ih rfl)

theorem related_drainWith (holds : HoldsAcross id Related) (delivers : HoldsAcrossDelivery Related)
    (script : List (List Request)) (engine : Engine) :
    Related engine (engine.drainWith script) := by
  induction script generalizing engine with
  | nil =>
    unfold drainWith
    split
    · next queue pending => exact related_deliverAll holds.toComposes delivers pending
    · exact holds.refl engine
  | cons requests script ih =>
    unfold drainWith
    split
    · exact holds.refl engine
    · next delivery sheet popped =>
      have delivered := delivers engine delivery sheet script popped
      have called : Related ({ engine with sheet }.deliver delivery script)
          (requests.foldl (serve id) ({ engine with sheet }.deliver delivery script)) :=
        holds.foldl (fun request _ engine => holds.serve engine request) _
      exact holds.trans delivered (holds.trans called (ih _))

/-- What holds across the parts of unsettled calls and across deliveries holds across draining. -/
theorem related_drain (holds : HoldsAcross id Related) (delivers : HoldsAcrossDelivery Related)
    (engine : Engine) : Related engine engine.drain := by
  unfold drain
  split
  · exact related_drainWith holds delivers _ engine
  · exact holds.refl engine

/-- A relation that holds across every change of the replica and of what is queued for it. -/
def HoldsAcrossReplica (Related : Engine → Engine → Prop) : Prop :=
  ∀ engine replica pending,
    Related engine { engine with sheet := { engine.sheet with pending }, replica }

theorem HoldsAcrossReplica.delivery (changes : HoldsAcrossReplica Related) :
    HoldsAcrossDelivery Related := by
  intro engine delivery sheet script popped
  unfold Sheet.nextPending at popped
  split at popped
  · obtain ⟨-, rfl⟩ := Prod.mk.inj popped
    exact changes engine _ _
  · cases popped

/-- What holds across the parts of calls holds of every engine that a configuration leads to. -/
theorem HoldsAcross.reached (holds : HoldsAcross drain Related)
    (changes : HoldsAcrossReplica Related) (config : Config) (replicated : Bool)
    (script : List (List Request)) (requests : List Request) :
    Related (bare config replicated)
      (((start drain config replicated).withScript script).run requests) := by
  have started : Related (bare config replicated) (start drain config replicated) := by
    simp only [start]
    split
    · exact holds.refl _
    · exact holds.text _ _ _ (by decide)
  have scripted := changes (start drain config replicated)
    ((start drain config replicated).withScript script).replica
    (start drain config replicated).sheet.pending
  exact holds.trans started (holds.trans scripted (holds.run _ requests))

end Engine

end AtomicCss
