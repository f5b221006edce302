import AtomicCss.Json.Parser
import AtomicCss.Style.Basic
import AtomicCss.Style.Error

/-!
Style objects from JSON.

Objects, arrays, strings and numbers are taken as they stand; `null` and booleans are no CSS values.
Only variant flags may be booleans, and become the texts `true` and `false`: the values of a root
`defaultVariants` object and the predicates of the objects in a root `compoundVariants` array.
Errors name the path of the first offending value in document order.
-/

namespace AtomicCss.StyleNode

/-- Whether booleans are allowed where a value stands. -/
inductive Place where
  | style
  | flag
  deriving DecidableEq

mutual

def valueOfJson (place : Place) (path : String) : Json → Except StyleError StyleValue
  | .text content => .ok (.text content)
  | .whole value => .ok (.number (Binary64.ofInt value))
  | .float value => .ok (.number value)
  | .bool value => match place with
    | .flag => .ok (.text (if value then "true" else "false"))
    | .style => .error (.invalid path (.notCssValue "a boolean"))
  | .null => .error (.invalid path (.notCssValue "null"))
  | .array items => do return .list (← itemsOfJson place path 0 items)
  | .object fields => do return .node (← entriesOfJson .style path fields)

def itemsOfJson (place : Place) (path : String) (index : Nat) :
    List Json → Except StyleError (List StyleValue)
  | [] => .ok []
  | item :: rest => do
    let item ← valueOfJson place (itemPath path index) item
    let rest ← itemsOfJson place path (index + 1) rest
    return item :: rest

def entriesOfJson (place : Place) (path : String) :
    List (String × Json) → Except StyleError StyleNode
  | [] => .ok []
  | (key, value) :: rest => do
    let value ← valueOfJson place (keyPath path key) value
    let rest ← entriesOfJson place path rest
    return (key, value) :: rest

end

def compoundEntries (path : String) : List (String × Json) → Except StyleError StyleNode
  | [] => .ok []
  | (key, value) :: rest => do
    let place := if key = "css" then Place.style else Place.flag
    let value ← valueOfJson place (keyPath path key) value
    let rest ← compoundEntries path rest
    return (key, value) :: rest

def compoundItems (path : String) (index : Nat) : List Json → Except StyleError (List StyleValue)
  | [] => .ok []
  | .object fields :: rest => do
    let compound ← compoundEntries (itemPath path index) fields
    let rest ← compoundItems path (index + 1) rest
    return .node compound :: rest
  | other :: _ => .error (.invalid (itemPath path index) (.compoundFound other.kind))

def rootValue (key : String) (value : Json) : Except StyleError StyleValue :=
  match key, value with
  | "defaultVariants", .object flags => do return .node (← entriesOfJson .flag key flags)
  | "compoundVariants", .array items => do return .list (← compoundItems key 0 items)
  | _, value => valueOfJson .style key value

def rootEntries : List (String × Json) → Except StyleError StyleNode
  | [] => .ok []
  | (key, value) :: rest => do
    let value ← rootValue key value
    let rest ← rootEntries rest
    return (key, value) :: rest

def rootPath : String := "<root>"

def ofJson : Json → Except StyleError StyleNode
  | .object fields => rootEntries fields
  | other => .error (.invalid rootPath (.rootNotObject other.kind))

def ofText (text : String) : Except StyleError StyleNode :=
  match Json.parse? text with
  | some json => ofJson json
  | none => .error (.invalid rootPath .malformedJson)

end AtomicCss.StyleNode
