import AtomicCss.NameMap
import AtomicCss.Style.Basic
import AtomicCss.Text.Search

/-!
Utilities: keys that stand for style objects made from their value.
-/

namespace AtomicCss

inductive Utility where
  | function (expansion : StyleValue → StyleNode)
  /-- A style object whose texts may hold the placeholder of the value. -/
  | template (body : StyleNode)

namespace Utility

def placeholder : String := "--value()"

/-- How many expansions may lie inside one another. -/
def depthLimit : Nat := 16

mutual

def fill (text : String) : StyleValue → StyleValue
  | .text content => .text (Text.replaceAll placeholder text content)
  | .number value => .number value
  | .list items => .list (fillItems text items)
  | .node entries => .node (fillEntries text entries)

def fillItems (text : String) : List StyleValue → List StyleValue
  | [] => []
  | item :: rest => fill text item :: fillItems text rest

def fillEntries (text : String) : List (String × StyleValue) → List (String × StyleValue)
  | [] => []
  | (key, value) :: rest => (key, fill text value) :: fillEntries text rest

end

/-- The text that a template receives: that of a scalar, or of the scalars of a list. -/
def argument : StyleValue → String
  | .list items => ", ".intercalate (items.filterMap StyleValue.cssText?)
  | value => value.cssText?.getD ""

def accepts (utility : Utility) (value : StyleValue) : Bool :=
  match utility with
  | function _ => true
  | template _ => !value.isNode

def expand (utility : Utility) (value : StyleValue) : StyleNode :=
  match utility with
  | function expansion => expansion value
  | template body => fillEntries (argument value) body

end Utility

end AtomicCss
