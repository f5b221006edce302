import AtomicCss.Json.Basic
import AtomicCss.Numeric.Format
import AtomicCss.Style.Error

/-!
Selections: the variant value asked for in each group.

A value is one text, or a text for each breakpoint; `@initial` is the branch without a breakpoint.
-/

namespace AtomicCss

inductive VariantValue where
  | single (value : String)
  /-- Breakpoint keys, such as `@initial` or `@bp2`, and the value asked for at each. -/
  | responsive (branches : List (String × String))
  deriving DecidableEq, Repr

namespace VariantValue

def initialKey : String := "@initial"

def initial? : VariantValue → Option String
  | single value => some value
  | responsive branches => Keyed.get? branches initialKey

def display : VariantValue → String
  | single value => value
  | responsive branches =>
    "\x7b" ++ ",".intercalate (branches.map fun (key, value) => key ++ "=" ++ value) ++ "\x7d"

def scalarText? : Json → Option String
  | .text content => some content
  | .bool value => some (if value then "true" else "false")
  | .whole value => some (Numeric.stylesheetText (Binary64.ofInt value))
  | .float value => some (Numeric.stylesheetText value)
  | _ => none

def branchesOfJson (path : String) :
    List (String × Json) → Except StyleError (List (String × String))
  | [] => .ok []
  | (key, value) :: rest =>
    match scalarText? value with
    | none => .error (.invalid (path ++ "." ++ key) .branchNotScalar)
    | some text => do return (key, text) :: (← branchesOfJson path rest)

/-- Reads the value of a group: a scalar, or an object of breakpoint keys and scalars. -/
def ofJson (path : String) : Json → Except StyleError VariantValue
  | .object fields => do return responsive (← branchesOfJson path fields)
  | scalar => match scalarText? scalar with
    | some text => .ok (single text)
    | none => .error (.invalid path .selectionNotScalar)

def pairLe (first second : String × String) : Bool :=
  first.1 < second.1 || (first.1 == second.1 && first.2 ≤ second.2)

/-- The value with its branches in the order of their texts. -/
def sorted : VariantValue → VariantValue
  | single value => single value
  | responsive branches => responsive (branches.mergeSort pairLe)

end VariantValue

/-- The value asked for in each group. -/
abbrev VariantSelection := Keyed VariantValue

/-- The key under which what a selection compiles to is remembered. -/
abbrev SelectionKey := List (String × VariantValue)

namespace VariantSelection

def ofJson (props : List (String × Json)) : Except StyleError VariantSelection :=
  props.foldlM (fun (selection : VariantSelection) (group, value) => do
    return selection.set group (← VariantValue.ofJson group value)) []

def key (selection : VariantSelection) : SelectionKey :=
  (selection.map fun (group, value) => (group, value.sorted)).mergeSort
    fun first second => first.1 ≤ second.1

end VariantSelection

end AtomicCss
