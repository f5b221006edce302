import AtomicCss.Json.Basic

/-!
Documents by the grammar of JSON alone.

Parts of a draft may have no value: numbers out of range, and texts with half of a surrogate pair. A
repeated key gives two entries. `tidy?` reads the value off a draft all of whose parts have one.
-/

namespace AtomicCss.Json

inductive Draft where
  /-- An atom, with its value if it has one. -/
  | atom (value : Option Json)
  | array (items : List Draft)
  | object (fields : List (Option String × Draft))
  deriving Inhabited

namespace Draft

mutual

/-- The value of a draft: a repeated key keeps its first place and its last value. `depth` counts
the containers that may lie inside one another. -/
def tidy? (depth : Nat) : Draft → Option Json
  | atom value => value
  | array items => match depth with
    | 0 => none
    | depth + 1 => (tidyItems? depth items).map .array
  | object fields => match depth with
    | 0 => none
    | depth + 1 => (tidyFields? depth fields).map fun fields => .object (Keyed.ofList fields)

def tidyItems? (depth : Nat) : List Draft → Option (List Json)
  | [] => some []
  | item :: rest => do
    let item ← tidy? depth item
    let rest ← tidyItems? depth rest
    return item :: rest

def tidyFields? (depth : Nat) : List (Option String × Draft) → Option (List (String × Json))
  | [] => some []
  | (key, value) :: rest => do
    let key ← key
    let value ← tidy? depth value
    let rest ← tidyFields? depth rest
    return (key, value) :: rest

end

end Draft

end AtomicCss.Json
