import AtomicCss.Proofs.Engine.Calls

/-!
Operations of an engine, one by one.

A request names styles by number and may stand for two operations; an operation has the styles
themselves and answers something. A request is carried out by performing its operations, so a run of
requests performs one operation after another. Besides compiling styles, operations ask for classes,
insert the texts of global styles and keyframes, or insert the text of a theme; only what they ask
for classes depends on earlier operations.
-/

namespace AtomicCss

inductive Operation where
  | css (node : StyleNode)
  | cssComposed (parts : List CompiledStyle) (node : StyleNode)
  | styled (element : String) (node : StyleNode)
  | extend (component : Component) (node : StyleNode)
  | className (style : CompiledStyle) (selection : VariantSelection) (override : Option StyleNode)
  | render (component : Component) (props : List (String × Json))
  | globalCss (node : StyleNode)
  | apply (style : GlobalStyle)
  | keyframes (node : StyleNode)
  | createTheme (name : Option String) (overrides : ScaleMap)

/-- What an operation answers; of a style its definition, since its number only tells where it is
kept. -/
inductive Answer where
  | style (definition : StyleDefinition)
  | component (element : String) (definition : StyleDefinition)
  | classes (text : String)
  | element (rendered : RenderedElement)
  | globalStyle (style : GlobalStyle)
  | applied
  | keyframes (keyframes : Keyframes)
  | theme (theme : Theme)

/-- What an operation makes: nothing that could be seen in the sheet, the rules of classes, the
texts of global styles and keyframes, or the text of a theme. -/
inductive OperationKind where
  | preparation
  | classes
  | globals
  | themes
  deriving DecidableEq

def CompiledStyle.renumber (number : Nat → Nat) (style : CompiledStyle) : CompiledStyle :=
  { style with number := number style.number }

def Component.renumber (number : Nat → Nat) (component : Component) : Component :=
  { component with style := component.style.renumber number }

namespace Operation

def kind : Operation → OperationKind
  | className .. | render .. => .classes
  | apply _ | keyframes _ => .globals
  | createTheme .. => .themes
  | css _ | cssComposed .. | styled .. | extend .. | globalCss _ => .preparation

/-- The same operation on styles that are kept under other numbers. -/
def renumber (number : Nat → Nat) : Operation → Operation
  | cssComposed parts node => cssComposed (parts.map (·.renumber number)) node
  | extend component node => extend (component.renumber number) node
  | className style selection override => className (style.renumber number) selection override
  | render component props => render (component.renumber number) props
  | operation => operation

/-- The styles that an operation is given are the engine's, as is its global style. -/
def Known (engine : Engine) : Operation → Prop
  | cssComposed parts _ => ∀ part ∈ parts, engine.style? part.number = some part
  | extend component _ | render component _ =>
    engine.style? component.style.number = some component.style
  | className style _ _ => engine.style? style.number = some style
  | apply style => ∃ node, engine.globalCss node = .ok style
  | _ => True

@[simp] theorem kind_renumber (number : Nat → Nat) (operation : Operation) :
    (operation.renumber number).kind = operation.kind := by
  cases operation <;> rfl

@[simp] theorem renumber_id (operation : Operation) : operation.renumber id = operation := by
  have same : CompiledStyle.renumber id = id := rfl
  cases operation with
  | cssComposed parts node => simp [renumber, same]
  | _ => rfl

end Operation

namespace Engine

/-- Performs an operation and tells its answer. -/
def perform (settle : Settle Engine) (engine : Engine) :
    Operation → Except StyleError Answer × Engine
  | .css node => (engine.css node).map (Except.map (.style ·.definition)) id
  | .cssComposed parts node =>
    (engine.cssComposed parts node).map (Except.map (.style ·.definition)) id
  | .styled element node => (engine.styled element node).map
      (Except.map fun component => .component component.element component.style.definition) id
  | .extend component node => (engine.extend component node).map
      (Except.map fun component => .component component.element component.style.definition) id
  | .className style selection override =>
    (engine.className settle style selection override).map (Except.map .classes) id
  | .render component props =>
    (engine.renderWith settle component props).map (Except.map .element) id
  | .globalCss node => ((engine.globalCss node).map .globalStyle, engine)
  | .apply style => (.ok .applied, engine.apply settle style)
  | .keyframes node => (engine.keyframes settle node).map (Except.map .keyframes) id
  | .createTheme name overrides =>
    (engine.createTheme settle name overrides).map (Except.map .theme) id

/-- Performs operations one after another. -/
def performAll (settle : Settle Engine) (engine : Engine) (operations : List Operation) : Engine :=
  operations.foldl (fun engine operation => (engine.perform settle operation).2) engine

/-- Operations with what they answer when they are performed one after another. -/
def transcript (settle : Settle Engine) (engine : Engine) :
    List Operation → List (Operation × Except StyleError Answer)
  | [] => []
  | operation :: rest =>
    (operation, (engine.perform settle operation).1) ::
      (engine.perform settle operation).2.transcript settle rest

/-- The operations that a request stands for. -/
def operations (engine : Engine) : Request → List Operation
  | .compile node => [.css node]
  | .compose parts node => match parts.mapM engine.style? with
    | some styles => [.cssComposed styles node]
    | none => []
  | .classOfStyle number selection override => match engine.style? number with
    | some style => [.className style selection override]
    | none => []
  | .classOf node selection override => .css node :: match (engine.css node).1 with
    | .ok style => [.className style selection override]
    | .error _ => []
  | .render element number props => match engine.style? number with
    | some style => [.render ⟨element, style⟩ props]
    | none => []
  | .applyGlobal node => .globalCss node :: match engine.globalCss node with
    | .ok style => [.apply style]
    | .error _ => []
  | .keyframes node => [.keyframes node]
  | .theme name overrides => [.createTheme name overrides]

/-- The operations of a run, each with the styles that it is given when its turn comes. -/
def calls (engine : Engine) : List Request → List Operation
  | [] => []
  | request :: rest => engine.operations request ++ (engine.serve drain request).calls rest

variable {settle : Settle Engine} {engine after : Engine} {operation : Operation}
  {error : StyleError}

theorem performAll_append (settle : Settle Engine) (engine : Engine)
    (first second : List Operation) :
    engine.performAll settle (first ++ second) =
      (engine.performAll settle first).performAll settle second :=
  List.foldl_append

/-- A request is carried out by performing its operations. -/
theorem serve_eq_performAll (settle : Settle Engine) (engine : Engine) (request : Request) :
    engine.serve settle request = engine.performAll settle (engine.operations request) := by
  cases request with
  | compile node => rfl
  | compose parts node =>
    simp only [serve, operations]
    cases parts.mapM engine.style? <;> rfl
  | classOfStyle number selection override =>
    simp only [serve, operations]
    cases engine.style? number <;> rfl
  | classOf node selection override =>
    rcases engine.css_cases node with ⟨error, refused⟩ | ⟨definition, compiled⟩
    · simp [serve, operations, performAll, perform, refused]
    · simp [serve, operations, performAll, perform, compiled]
  | render element number props =>
    simp only [serve, operations]
    cases engine.style? number <;> rfl
  | applyGlobal node =>
    simp only [serve, operations]
    cases engine.globalCss node <;> rfl
  | keyframes node => rfl
  | theme name overrides => rfl

theorem run_eq_performAll (engine : Engine) (requests : List Request) :
    engine.run requests = engine.performAll drain (engine.calls requests) := by
  induction requests generalizing engine with
  | nil => rfl
  | cons request rest ih =>
    rw [calls, performAll_append, ← serve_eq_performAll, ← ih]
    rfl

theorem ok_of_map_eq_ok {α β : Type} {say : α → β} {result : Except StyleError α} {answer : β}
    (mapped : result.map say = .ok answer) : ∃ value, result = .ok value ∧ say value = answer := by
  cases result with
  | error error => cases mapped
  | ok value => exact ⟨value, rfl, Except.ok.inj mapped⟩

theorem error_of_map_eq_error {α β : Type} {say : α → β} {result : Except StyleError α}
    (mapped : result.map say = .error error) : result = .error error := by
  cases result with
  | error other => exact congrArg _ (Except.error.inj mapped)
  | ok value => cases mapped

/-- An answer that was told from a result comes with the engine of that result. -/
theorem told_eq {α β : Type} {say : α → β} {result : Except StyleError α × Engine}
    {answer : Except StyleError β} (told : result.map (Except.map say) id = (answer, after)) :
    result.1.map say = answer ∧ result.2 = after :=
  Prod.mk.inj told

theorem told_failed {α β : Type} {say : α → β} {result : Except StyleError α × Engine}
    (failed : result.map (Except.map say) id = (.error error, after)) :
    result = (.error error, after) := by
  obtain ⟨refused, unchanged⟩ := told_eq failed
  exact Prod.ext (error_of_map_eq_error refused) unchanged

theorem styled_eq (engine : Engine) (element : String) (node : StyleNode) :
    engine.styled element node =
      (engine.css node).map (Except.map fun style => ⟨element, style⟩) id := by
  unfold styled
  split <;> next answer =>
    rw [answer]
    rfl

theorem extend_eq (engine : Engine) (component : Component) (node : StyleNode) :
    engine.extend component node =
      (engine.cssComposed [component.style] node).map
        (Except.map fun style => { component with style }) id := by
  unfold extend
  split <;> next answer =>
    rw [answer]
    rfl

theorem renderWith_eq (settle : Settle Engine) (engine : Engine) {component : Component}
    {props : List (String × Json)} {reading : Component.Reading}
    (read : component.read props = .ok reading) :
    engine.renderWith settle component props =
      (engine.className settle component.style reading.selection reading.override).map
        (Except.map fun text =>
          ⟨reading.element, Component.joinClasses text reading.extraClass,
            reading.forwarded⟩) id := by
  simp only [renderWith, read]
  split <;> next answer =>
    rw [answer]
    rfl

/-- An operation that asks for classes comes to asking a style, unless its props are refused. -/
theorem perform_asks (settle : Settle Engine) (engine : Engine) (asks : operation.kind = .classes) :
    (engine.perform settle operation).2 = engine ∨
      ∃ style selection override, (engine.perform settle operation).2 =
        (engine.className settle style selection override).2 := by
  cases operation with
  | className style selection override => exact .inr ⟨style, selection, override, rfl⟩
  | render component props =>
    cases read : component.read props with
    | error error => exact .inl (by simp [perform, renderWith, read])
    | ok reading =>
      refine .inr ⟨component.style, reading.selection, reading.override, ?_⟩
      rw [perform, renderWith_eq settle engine read]
      rfl
  | _ => cases asks

theorem HoldsAcross.perform {Related : Engine → Engine → Prop} (holds : HoldsAcross settle Related)
    (known : operation.Known engine) : Related engine (engine.perform settle operation).2 := by
  cases operation with
  | css node => exact holds.css engine node
  | cssComposed parts node => exact holds.cssComposed engine parts node
  | styled element node =>
    rw [Engine.perform, styled_eq]
    exact holds.css engine node
  | extend component node =>
    rw [Engine.perform, extend_eq]
    exact holds.cssComposed engine [component.style] node
  | className style selection override => exact holds.asked engine style selection override known
  | render component props => exact holds.renderWith engine component props known
  | globalCss node => exact holds.refl engine
  | apply style =>
    obtain ⟨node, found⟩ := known
    exact holds.apply engine (order_globalCss found)
  | keyframes node => exact holds.keyframes engine node
  | createTheme name overrides => exact holds.createTheme engine name overrides

/-- The texts that an operation inserts. -/
def texts (engine : Engine) : Operation → List (SheetGroup × String)
  | .apply style => style.rules
  | .keyframes node => match flatten engine.vocabulary .keyframes node with
    | .ok rules => [(.global, (keyframesOf engine.config.namePrefix rules).css)]
    | .error _ => []
  | .createTheme name overrides =>
    match engine.theme.derive name overrides engine.config.namePrefix with
    | .ok theme => if theme.declared.isEmpty then [] else [(.themed, themeRule engine.config theme)]
    | .error _ => []
  | _ => []

def insertTexts (settle : Settle Engine) (engine : Engine) (texts : List (SheetGroup × String)) :
    Engine :=
  texts.foldl (fun engine text => engine.insertText settle text.1 text.2) engine

/-- Unless it is asked for classes, an operation only inserts its texts, besides compiling
styles. -/
theorem perform_other (settle : Settle Engine) (engine : Engine)
    (other : operation.kind ≠ .classes) :
    ∃ styles, (engine.perform settle operation).2 =
      { engine.insertTexts settle (engine.texts operation) with styles } := by
  have compiled (definition : StyleDefinition) :
      ∃ styles, (engine.compile definition).2 = { engine with styles } := by
    rcases engine.compile_cases definition with ⟨error, refused⟩ | compiled
    · exact ⟨engine.styles, by rw [refused]⟩
    · exact ⟨_, by rw [compiled]⟩
  have composed (parts : List CompiledStyle) (node : StyleNode) :
      ∃ styles, (engine.cssComposed parts node).2 = { engine with styles } := by
    unfold cssComposed
    split
    · exact ⟨engine.styles, rfl⟩
    · exact compiled _
  have own (node : StyleNode) : ∃ styles, (engine.css node).2 = { engine with styles } := by
    unfold css
    split
    · exact ⟨engine.styles, rfl⟩
    · exact compiled _
  cases operation with
  | css node => exact own node
  | cssComposed parts node => exact composed parts node
  | styled element node =>
    rw [perform, styled_eq]
    exact own node
  | extend component node =>
    rw [perform, extend_eq]
    exact composed [component.style] node
  | className style selection override => exact absurd rfl other
  | render component props => exact absurd rfl other
  | globalCss node => exact ⟨engine.styles, rfl⟩
  | apply style => exact ⟨(engine.apply settle style).styles, rfl⟩
  | keyframes node =>
    simp only [perform, Prod.map, keyframes, texts]
    cases flatten engine.vocabulary .keyframes node with
    | error error => exact ⟨engine.styles, rfl⟩
    | ok rules => exact ⟨_, rfl⟩
  | createTheme name overrides =>
    simp only [perform, Prod.map, createTheme, texts]
    cases engine.theme.derive name overrides engine.config.namePrefix with
    | error error => exact ⟨engine.styles, rfl⟩
    | ok theme => by_cases none_declared : theme.declared.isEmpty = true <;>
        simp only [none_declared] <;> exact ⟨_, rfl⟩

section Same

variable {first second : Engine} (config : second.config = first.config)
  (theme : second.theme = first.theme)

include config theme

theorem vocabulary_of_same : second.vocabulary = first.vocabulary := by
  rw [vocabulary, vocabulary, config, theme]

theorem check_of_same (definition : StyleDefinition) :
    second.check definition = first.check definition := by
  rw [check, check, vocabulary_of_same config theme]

theorem globalCss_of_same (node : StyleNode) : second.globalCss node = first.globalCss node := by
  rw [globalCss, globalCss, vocabulary_of_same config theme]

theorem texts_of_same (operation : Operation) : second.texts operation = first.texts operation := by
  have vocabulary := vocabulary_of_same config theme
  cases operation <;> simp only [texts, vocabulary, config, theme]

section Told

variable {β : Type} (tell : StyleDefinition → β)

theorem compile_of_same (definition : StyleDefinition) :
    (second.compile definition).1.map (tell ·.definition) =
      (first.compile definition).1.map (tell ·.definition) := by
  simp only [compile, check_of_same config theme]
  cases first.check definition <;> rfl

theorem css_of_same (node : StyleNode) :
    (second.css node).1.map (tell ·.definition) = (first.css node).1.map (tell ·.definition) := by
  unfold css
  cases StyleDefinition.parse node with
  | error error => rfl
  | ok own => exact compile_of_same config theme tell own

theorem cssComposed_of_same (number : Nat → Nat) (parts : List CompiledStyle) (node : StyleNode) :
    (second.cssComposed (parts.map (·.renumber number)) node).1.map (tell ·.definition) =
      (first.cssComposed parts node).1.map (tell ·.definition) := by
  have definitions :
      (parts.map (·.renumber number)).map (·.definition) = parts.map (·.definition) := by
    simp [CompiledStyle.renumber]
  unfold cssComposed
  cases StyleDefinition.parse node with
  | error error => rfl
  | ok own =>
    rw [definitions]
    exact compile_of_same config theme tell _

end Told

/-- Unless it is asked for classes, an operation answers by configuration and theme alone. -/
theorem answer_of_same (other : operation.kind ≠ .classes) (settle another : Settle Engine)
    (number : Nat → Nat) :
    (second.perform another (operation.renumber number)).1 =
      (first.perform settle operation).1 := by
  have vocabulary := vocabulary_of_same config theme
  have twice {α β γ : Type} (keep : α → β) (tell : β → γ) (result : Except StyleError α) :
      (result.map keep).map tell = result.map fun value => tell (keep value) := by
    cases result <;> rfl
  cases operation with
  | css node => exact css_of_same config theme Answer.style node
  | cssComposed parts node => exact cssComposed_of_same config theme Answer.style number parts node
  | styled element node =>
    simp only [perform, Operation.renumber, styled_eq, Prod.map, twice]
    exact css_of_same config theme (Answer.component element) node
  | extend component node =>
    simp only [perform, Operation.renumber, extend_eq, Prod.map, twice]
    exact cssComposed_of_same config theme (Answer.component component.element) number
      [component.style] node
  | className style selection override => exact absurd rfl other
  | render component props => exact absurd rfl other
  | globalCss node => simp only [perform, Operation.renumber, globalCss, vocabulary]
  | apply style => rfl
  | keyframes node =>
    simp only [perform, Operation.renumber, keyframes, vocabulary, config, Prod.map]
    cases flatten first.vocabulary .keyframes node <;> rfl
  | createTheme name overrides =>
    simp only [perform, Operation.renumber, createTheme, config, theme, Prod.map]
    cases first.theme.derive name overrides first.config.namePrefix with
    | error error => rfl
    | ok theme => by_cases none_declared : theme.declared.isEmpty = true <;> simp [none_declared]

end Same

end Engine

end AtomicCss
