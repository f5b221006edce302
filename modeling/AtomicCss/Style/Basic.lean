import AtomicCss.Json.Printer

/-!
Style objects.

A style object maps keys to values and keeps their order, which decides the order of the rules. Keys
are CSS properties, selectors, at-rules, names of utilities or local tokens. `merge` lays one object
over another.
-/

namespace AtomicCss

inductive StyleValue where
  | text (content : String)
  | number (value : Binary64)
  /-- Fallback declarations if the items are scalars, repeated blocks if they are objects. -/
  | list (items : List StyleValue)
  | node (entries : List (String × StyleValue))
  deriving Inhabited

/-- A style object. -/
abbrev StyleNode := Keyed StyleValue

namespace StyleValue

def node? : StyleValue → Option StyleNode
  | node entries => some entries
  | _ => none

def isNode : StyleValue → Bool
  | node _ => true
  | _ => false

def isScalar : StyleValue → Bool
  | text _ | number _ => true
  | _ => false

def cssText? : StyleValue → Option String
  | text content => some content
  | number value => some (Numeric.stylesheetText value)
  | _ => none

/-- Whether the value opens blocks: an object, or a list of objects that is not empty. -/
def isBlock : StyleValue → Bool
  | node _ => true
  | list items => !items.isEmpty && items.all isNode
  | _ => false

def blocks : StyleValue → List StyleNode
  | node entries => [entries]
  | list items => items.filterMap node?
  | _ => []

mutual

/-- The value as JSON. Numbers that are not finite become `null`. -/
def toJson : StyleValue → Json
  | text content => .text content
  | number value => if value.isFinite then .float value else .null
  | list items => .array (itemsToJson items)
  | node entries => .object (entriesToJson entries)

def itemsToJson : List StyleValue → List Json
  | [] => []
  | item :: rest => item.toJson :: itemsToJson rest

def entriesToJson : List (String × StyleValue) → List (String × Json)
  | [] => []
  | (key, value) :: rest => (key, value.toJson) :: entriesToJson rest

end

/-- The text that shows a value: of a scalar as in a stylesheet, of all else its JSON. -/
def display (value : StyleValue) : String := value.cssText?.getD value.toJson.compact

end StyleValue

namespace StyleNode

def toJson (node : StyleNode) : Json := (StyleValue.node node).toJson

def moveLast (node : StyleNode) (key : String) (value : StyleValue) : StyleNode :=
  node.erase key ++ [(key, value)]

mutual

/-- Lays the entries of one object over another: objects under one key merge where the key stands,
and any other overriding entry moves to the end. -/
def merge (base : StyleNode) : List (String × StyleValue) → StyleNode
  | [] => base
  | (key, value) :: rest => merge (mergeEntry base key value) rest

def mergeEntry (base : StyleNode) (key : String) : StyleValue → StyleNode
  | .node incoming => match base.get? key with
    | some (.node current) => base.set key (.node (merge current incoming))
    | _ => moveLast base key (.node incoming)
  | value => moveLast base key value

end

end StyleNode

end AtomicCss
