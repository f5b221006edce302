import AtomicCss.Style.Error
import AtomicCss.Vocabulary

/-!
Flat rules: the declarations of a style object, each with the selector and the at-rules it stands
under.

A style object is walked from left to right. An entry's blocks and the expansion of a utility are
walked completely before the next entry. Entries are numbered in this order, and so are blocks; the
blocks of one entry get their numbers before the first of them is walked.
-/

namespace AtomicCss

/-- One declaration. In scoped styles `&` in the selector stands for the owning class; a descriptor
block and a root statement have an empty selector. -/
structure FlatRule where
  atRules : List String
  selector : String
  property : String
  value : String
  /-- The style entry that the declaration comes from; the values of a fallback list share it. -/
  origin : Nat
  /-- The block that the declaration was written in. -/
  block : Nat
  deriving DecidableEq, Repr

/-- What the root keys of a style object may be. -/
inductive FlattenMode where
  /-- Declarations of an owning class. -/
  | scoped
  /-- Selectors, at-rules and at-rule statements. -/
  | global
  /-- Keyframe selectors. -/
  | keyframes
  deriving DecidableEq, Repr

namespace Flatten

/-- Where a block stands. -/
structure Place where
  selectors : List String
  atRules : List String
  block : Nat
  /-- Whether declarations may stand without a selector. -/
  bare : Bool
  path : String

/-- The rules so far and the next numbers of entries and blocks. -/
structure Output where
  rules : List FlatRule
  nextOrigin : Nat
  nextBlock : Nat

def Output.start : Output := ⟨[], 0, 1⟩

def Output.declare (out : Output) (place : Place) (property : String) (values : List String) :
    Output :=
  { out with
    rules := out.rules ++ values.map fun value =>
      ⟨place.atRules, ", ".intercalate place.selectors, property, value, out.nextOrigin,
        place.block⟩
    nextOrigin := out.nextOrigin + 1 }

/-- Adds the statements of one entry, each in a block of its own. -/
def Output.state (out : Output) (property : String) (values : List String) : Output :=
  { rules := out.rules ++ values.mapIdx fun index value =>
      ⟨[], "", property, value, out.nextOrigin, out.nextBlock + index⟩
    nextOrigin := out.nextOrigin + 1
    nextBlock := out.nextBlock + values.length }

/-- The items of a value that declarations are made of. -/
def items : StyleValue → List StyleValue
  | .list items => items
  | value => [value]

def isFiniteNumber : StyleValue → Bool
  | .number value => value.isFinite
  | _ => true

/-- The text of one item of a declaration. Local tokens take neither units nor bare token names. -/
def itemText? (scope : TokenScope) (property : String) (isLocal : Bool) (item : StyleValue) :
    Option String :=
  if isLocal then match item with
    | .text content => some (scope.resolve property content)
    | item => item.cssText?
  else scope.resolveScalar? property item

/-- The text of every item, or what is wrong with the first that has none. -/
def itemTexts (text? : StyleValue → Option String) : List StyleValue → Except Fault (List String)
  | [] => .ok []
  | item :: rest =>
    if !isFiniteNumber item then .error .notFinite
    else match text? item with
      | none => .error .mixedList
      | some text => do return text :: (← itemTexts text? rest)

def declarationValues (scope : TokenScope) (property : String) (isLocal : Bool)
    (value : StyleValue) :
    Except Fault (List String) :=
  if (items value).isEmpty then .error .emptyList
  else itemTexts (itemText? scope property isLocal) (items value)

def statementValues (scope : TokenScope) (key : String) (value : StyleValue) :
    Except Fault (List String) :=
  itemTexts (fun item => item.cssText?.map (scope.resolve key)) (items value)

/-- What an entry comes to, short of walking into it. -/
inductive Step where
  | written (out : Output)
  | expansion (utility : String) (place : Place) (node : StyleNode)
  | blocks (place : Place)

def declare (vocabulary : Vocabulary) (place : Place) (key : String) (value : StyleValue)
    (out : Output) :
    Except Fault Step :=
  if Selector.isKey key then .error .selectorWithoutBlock
  else if place.selectors.isEmpty && !place.bare then .error .declarationOutsideSelector
  else do
    let (property, isLocal) := match Text.stripPrefix? "$$" key with
      | some name => (Property.ofLocalToken name vocabulary.scope.namePrefix, true)
      | none => (Property.ofKey key, false)
    let values ← declarationValues vocabulary.scope property isLocal value
    return .written (out.declare place property values)

/-- What one entry comes to at its place; `place.path` is the path of the entry. -/
def step (vocabulary : Vocabulary) (mode : FlattenMode) (place : Place) (key : String)
    (value : StyleValue) (out : Output) : Except Fault Step :=
  if Text.allBlank key then .error .emptyKey
  else match KeyKind.of vocabulary.utilities key value with
    | .property | .localToken => declare vocabulary place key value out
    | .utility => match vocabulary.utilities.get? key with
      | none => .ok (.written out)
      | some utility =>
        if utility.accepts value then .ok (.expansion key place (utility.expand value))
        else .error (.utilityRefusesBlock key)
    | .pseudoSelector | .descendantSelector => match Selector.nest? place.selectors key with
      | none => .error .ownerMissing
      | some selectors => .ok (.blocks { place with selectors, bare := false })
    | .atRule =>
      .ok (.blocks { place with
        atRules := place.atRules ++ [AtRule.ofKey vocabulary.breakpoints key]
        bare := mode == .global && place.selectors.isEmpty && AtRule.isDescriptor key })
    | .atStatement =>
      if mode != .global || !place.selectors.isEmpty || !place.atRules.isEmpty then
        .error .misplacedStatement
      else do
        let values ← statementValues vocabulary.scope key value
        return .written (out.state key values)

/-- Walks an expansion: the name of its utility, its place and its object. -/
abbrev Expander := String → Place → StyleNode → Output → Except StyleError Output

mutual

def entries (vocabulary : Vocabulary) (mode : FlattenMode) (expand : Expander) (place : Place) :
    List (String × StyleValue) → Output → Except StyleError Output
  | [], out => .ok out
  | (key, value) :: rest, out => do
    let out ← entry vocabulary mode expand
        { place with path := keyPath place.path key } key value out
    entries vocabulary mode expand place rest out

def entry (vocabulary : Vocabulary) (mode : FlattenMode) (expand : Expander) (place : Place)
    (key : String) (value : StyleValue) (out : Output) : Except StyleError Output :=
  match step vocabulary mode place key value out with
  | .error fault => .error (.invalid place.path fault)
  | .ok (.written out) => .ok out
  | .ok (.expansion utility inner node) => expand utility inner node out
  | .ok (.blocks inner) => match value with
    | .node block =>
      entries vocabulary mode expand { inner with block := out.nextBlock } block
        { out with nextBlock := out.nextBlock + 1 }
    | .list items =>
      blocks vocabulary mode expand inner out.nextBlock items
        { out with nextBlock := out.nextBlock + (items.filter StyleValue.isNode).length }
    | _ => .ok out

def blocks (vocabulary : Vocabulary) (mode : FlattenMode) (expand : Expander) (place : Place)
    (number : Nat) : List StyleValue → Output → Except StyleError Output
  | [], out => .ok out
  | .node block :: rest, out => do
    let out ← entries vocabulary mode expand { place with block := number } block out
    blocks vocabulary mode expand place (number + 1) rest out
  | _ :: rest, out => blocks vocabulary mode expand place number rest out

end

/-- Walks expansions that may hold `remaining` more expansions inside one another. -/
def expansion (vocabulary : Vocabulary) (mode : FlattenMode) : (remaining : Nat) → Expander
  | 0, utility, _, _, _ => .error (.utilityCycle utility Utility.depthLimit)
  | remaining + 1, _, place, node, out =>
    entries vocabulary mode (expansion vocabulary mode remaining) place node out

def rootPlace (mode : FlattenMode) : Place :=
  { selectors := if mode = .scoped then ["&"] else []
    atRules := [], block := 0, bare := false, path := "" }

end Flatten

def flatten (vocabulary : Vocabulary) (mode : FlattenMode) (node : StyleNode) :
    Except StyleError (List FlatRule) := do
  let out ← Flatten.entries vocabulary mode (Flatten.expansion vocabulary mode Utility.depthLimit)
    (Flatten.rootPlace mode) node .start
  return out.rules

end AtomicCss
