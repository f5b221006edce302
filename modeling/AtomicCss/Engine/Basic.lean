import AtomicCss.Config.Basic
import AtomicCss.Rule.Global
import AtomicCss.Sheet.AtomicIndex
import AtomicCss.Variant.Resolve

/-!
The engine of one configuration: its theme, its sheet, and the classes that it gave out.

Every operation answers a result and the engine after it. An operation that fails leaves the engine
as it was. New rules are queued for a replica; an operation is told by a `Settle` what to do once it
has queued some, and hands over the engine between one queued batch and the next.
-/

namespace AtomicCss

/-- What happens to the engine each time that rules were inserted. -/
abbrev Settle (Engine : Type) := Engine → Engine

/-- A call on the engine. Styles that were compiled before are named by their number. -/
inductive Request where
  /-- Compile a style object; `styled` comes to this. -/
  | compile (node : StyleNode)
  /-- Compile a style object over earlier styles; extending a component comes to this. -/
  | compose (parts : List Nat) (node : StyleNode)
  /-- Ask a style for the class of a selection, with an override. -/
  | classOfStyle (style : Nat) (selection : VariantSelection) (override : Option StyleNode)
  /-- Compile a style object and ask for the class of a selection, with an override. -/
  | classOf (node : StyleNode) (selection : VariantSelection) (override : Option StyleNode)
  /-- Render a component with an element and a style. -/
  | render (element : String) (style : Nat) (props : List (String × Json))
  | applyGlobal (node : StyleNode)
  | keyframes (node : StyleNode)
  | theme (name : Option String) (overrides : ScaleMap)

/-- A copy of the sheet that is kept elsewhere, as far as the engine knows it. -/
structure Replica where
  /-- The rules that were delivered, in order. -/
  delivered : List Delivery
  /-- The calls that it makes on its next deliveries. -/
  script : List (List Request)

structure Engine where
  config : Config
  theme : Theme
  sheet : Sheet
  index : AtomicIndex
  /-- The classes of the selections that styles were asked for, by style. -/
  memo : List ((Nat × SelectionKey) × String)
  /-- The definitions of all styles so far; a style is numbered by its place. -/
  styles : List StyleDefinition
  replica : Option Replica

/-- A style whose layers were all checked. -/
structure CompiledStyle where
  /-- What the engine remembers the classes of the style under. -/
  number : Nat
  definition : StyleDefinition

/-- Texts of a global style, waiting to be applied. -/
structure GlobalStyle where
  rules : List (SheetGroup × String)

def GlobalStyle.text (style : GlobalStyle) : String := String.join (style.rules.map (·.2))

/-- An animation with its generated name. -/
structure Keyframes where
  name : String
  css : String

namespace Engine

def vocabulary (engine : Engine) : Vocabulary := engine.config.vocabulary engine.theme

def themeRule (config : Config) (theme : Theme) : String :=
  let scope := (config.vocabulary theme).scope
  AtRule.block theme.selector (";".intercalate (theme.declared.map fun token =>
    token.property ++ ":" ++ scope.resolve token.property token.value))

/-- The texts that are hashed for a text of the sheet. -/
def textParts (group : SheetGroup) (css : String) : List String := ["sheet", group.name, css]

/-- Inserts a text that is no atomic rule. -/
def insertText (settle : Settle Engine) (engine : Engine) (group : SheetGroup) (css : String) :
    Engine :=
  let (_, sheet) := engine.sheet.insert group 0 (Hash.content (textParts group css)) css
  settle { engine with sheet }

/-- An engine without rules. -/
def bare (config : Config) (replicated : Bool) : Engine :=
  { config, theme := config.defaultTheme
    sheet := if replicated then .replicated else .empty
    index := .empty config.namePrefix
    memo := [], styles := []
    replica := if replicated then some ⟨[], []⟩ else none }

/-- The engine of a configuration, with the rule of its default theme. -/
def start (settle : Settle Engine) (config : Config) (replicated : Bool) : Engine :=
  let engine := bare config replicated
  if engine.theme.isEmpty then engine
  else engine.insertText settle .themed (themeRule config engine.theme)

def cssText (engine : Engine) : String := engine.sheet.text

def ruleCount (engine : Engine) : Nat := engine.sheet.size

/-- Checks a definition: its defaults, and that each of its layers can be flattened. -/
def check (engine : Engine) (definition : StyleDefinition) : Except StyleError Unit := do
  definition.validateDefaults
  definition.layers.forM fun (_, layer) => do
    let _ ← flatten engine.vocabulary .scoped layer

/-- Compiles a definition. No rule is made before a class is asked for. -/
def compile (engine : Engine) (definition : StyleDefinition) :
    Except StyleError CompiledStyle × Engine :=
  match engine.check definition with
  | .error error => (.error error, engine)
  | .ok () =>
    (.ok ⟨engine.styles.length, definition⟩,
      { engine with styles := engine.styles ++ [definition] })

/-- The style with a number. -/
def style? (engine : Engine) (number : Nat) : Option CompiledStyle :=
  engine.styles[number]?.map fun definition => ⟨number, definition⟩

def cssComposed (engine : Engine) (parts : List CompiledStyle) (node : StyleNode) :
    Except StyleError CompiledStyle × Engine :=
  match StyleDefinition.parse node with
  | .error error => (.error error, engine)
  | .ok own => engine.compile (.compose (parts.map (·.definition) ++ [own]))

def css (engine : Engine) (node : StyleNode) : Except StyleError CompiledStyle × Engine :=
  match StyleDefinition.parse node with
  | .error error => (.error error, engine)
  | .ok definition => engine.compile definition

def emit (engine : Engine) (declaration : AtomicDeclaration) : String × Engine :=
  match engine.index.emit declaration with
  | ((className, none), index) => (className, { engine with index })
  | ((className, some rule), index) =>
    let rank := declaration.rank engine.config.breakpoints
    let (_, sheet) := engine.sheet.insert declaration.group rank rule.slot rule.css
    (className, { engine with index, sheet })

/-- The classes of declarations, each once. -/
def emitAll (engine : Engine) :
    List AtomicDeclaration → (classes : List String) → List String × Engine
  | [], classes => (classes, engine)
  | declaration :: rest, classes =>
    let (className, engine) := engine.emit declaration
    engine.emitAll rest (if classes.contains className then classes else classes ++ [className])

def declarations (engine : Engine) (definition : StyleDefinition) (selection : VariantSelection)
    (override : Option StyleNode) : Except StyleError (List AtomicDeclaration) := do
  let node ← definition.resolve selection engine.config.breakpoints.names override
  return collapse (← flatten engine.vocabulary .scoped node)

def remembered? (engine : Engine) (style : CompiledStyle) (key : SelectionKey) : Option String :=
  (engine.memo.find? fun entry => entry.1 = (style.number, key)).map (·.2)

def remember (engine : Engine) (style : CompiledStyle) (key : SelectionKey) (className : String) :
    Engine :=
  { engine with memo := ((style.number, key), className) :: engine.memo }

def freshClass (settle : Settle Engine) (engine : Engine) (style : CompiledStyle)
    (selection : VariantSelection) (override : Option StyleNode) :
    Except StyleError String × Engine :=
  match engine.declarations style.definition selection override with
  | .error error => (.error error, engine)
  | .ok declarations =>
    let (classes, engine) := engine.emitAll declarations []
    (.ok (" ".intercalate classes), settle engine)

/-- The classes of a selection of a style, with an override on top of all its layers. Without an
override they are remembered. -/
def className (settle : Settle Engine) (engine : Engine) (style : CompiledStyle)
    (selection : VariantSelection) (override : Option StyleNode) :
    Except StyleError String × Engine :=
  let selection := style.definition.normalize selection
  match override with
  | some _ => engine.freshClass settle style selection override
  | none =>
    match engine.remembered? style selection.key with
    | some className => (.ok className, engine)
    | none => match engine.freshClass settle style selection none with
      | (.ok className, engine) => (.ok className, engine.remember style selection.key className)
      | (.error error, engine) => (.error error, engine)

def globalCss (engine : Engine) (node : StyleNode) : Except StyleError GlobalStyle := do
  return ⟨globalRules (← flatten engine.vocabulary .global node)⟩

def apply (settle : Settle Engine) (engine : Engine) (style : GlobalStyle) : Engine :=
  style.rules.foldl (fun engine (group, css) => engine.insertText settle group css) engine

def keyframesOf (namePrefix : String) (rules : List FlatRule) : Keyframes :=
  let body := String.join ((globalRules rules).map (·.2))
  let name := Name.prefixed namePrefix
    ("k-" ++ Text.Base36.encode (Hash.content ["keyframes", body]).toNat)
  ⟨name, AtRule.block ("@keyframes " ++ name) body⟩

def keyframes (settle : Settle Engine) (engine : Engine) (node : StyleNode) :
    Except StyleError Keyframes × Engine :=
  match flatten engine.vocabulary .keyframes node with
  | .error error => (.error error, engine)
  | .ok rules =>
    let keyframes := keyframesOf engine.config.namePrefix rules
    (.ok keyframes, engine.insertText settle .global keyframes.css)

/-- Derives a theme and registers its class; a theme without overrides has no rule. -/
def createTheme (settle : Settle Engine) (engine : Engine) (name : Option String)
    (overrides : ScaleMap) : Except StyleError Theme × Engine :=
  match engine.theme.derive name overrides engine.config.namePrefix with
  | .error error => (.error error, engine)
  | .ok theme =>
    if theme.declared.isEmpty then (.ok theme, engine)
    else (.ok theme, engine.insertText settle .themed (themeRule engine.config theme))

end Engine

end AtomicCss
