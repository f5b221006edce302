/-!
Lists of named entries that keep the order in which their names first came.

`Keyed` holds style objects, JSON objects and variant selections. Setting a name that is present
changes its entry in place; a new name goes to the end. So names that were distinct stay distinct,
and lookups see a finite map.
-/

namespace AtomicCss

/-- Named entries in order. -/
abbrev Keyed (α : Type) := List (String × α)

namespace Keyed

variable {α : Type}

def get? (entries : Keyed α) (name : String) : Option α :=
  match entries with
  | [] => none
  | (existing, value) :: rest => if existing = name then some value else get? rest name

def contains (entries : Keyed α) (name : String) : Bool := (get? entries name).isSome

def set (entries : Keyed α) (name : String) (value : α) : Keyed α :=
  match entries with
  | [] => [(name, value)]
  | (existing, current) :: rest =>
    if existing = name then (existing, value) :: rest
    else (existing, current) :: set rest name value

def erase (entries : Keyed α) (name : String) : Keyed α :=
  match entries with
  | [] => []
  | (existing, current) :: rest =>
    if existing = name then rest else (existing, current) :: erase rest name

def names (entries : Keyed α) : List String := entries.map (·.1)

/-- Sets every entry of a list in turn: each name keeps its first place and its last value. -/
def ofList (entries : List (String × α)) : Keyed α :=
  entries.foldl (fun built (name, value) => built.set name value) []

end Keyed

end AtomicCss
