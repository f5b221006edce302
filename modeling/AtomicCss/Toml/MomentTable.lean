import AtomicCss.Toml.Moment
import AtomicCss.Toml.Basic

/-!
Dates and times that are written as tables.

A table whose first key is the reserved one stands for the date or time in the string behind it, and
its other entries do not count.
-/

namespace AtomicCss.Toml

def toMoment? : Toml → Option Toml
  | text spelling => if Moment.isLoose spelling.toList then some (moment spelling) else none
  | _ => none

mutual

/-- The value with dates and times in place of the tables that stand for them; none if such a table
does not hold one. -/
def settle? : Toml → Option Toml
  | array items => (settleItems? items).map array
  | table entries => match entries with
    | [] => some (table [])
    | (key, value) :: rest =>
      if key = momentKey then value.toMoment?
      else do
        let value ← settle? value
        let rest ← settleEntries? rest
        return table ((key, value) :: rest)
  | atom => some atom

def settleItems? : List Toml → Option (List Toml)
  | [] => some []
  | item :: rest => do
    let item ← settle? item
    let rest ← settleItems? rest
    return item :: rest

def settleEntries? : List (String × Toml) → Option (List (String × Toml))
  | [] => some []
  | (key, value) :: rest => do
    let value ← settle? value
    let rest ← settleEntries? rest
    return (key, value) :: rest

end

end AtomicCss.Toml
