import AtomicCss.Toml.Basic

/-!
Tables under construction.

Headers and dotted keys open tables along a path. A table remembers how it came to be, since each
way of defining a table may be used once: a header may take up a table that only lay on the path of
another header, and dotted keys may go on only in tables that dotted keys made.
-/

namespace AtomicCss.Toml

/-- How a table came to be. -/
inductive Origin where
  /-- Its own header, or an entry of an array of tables. -/
  | header
  /-- The path of another header. -/
  | path
  /-- A dotted key. -/
  | dotted
  deriving DecidableEq

inductive Item where
  | value (written : Toml)
  | table (origin : Origin) (entries : List (String × Item))
  /-- An array of tables: those that are complete and the last one. -/
  | tables (earlier : List Toml) (last : List (String × Item))

namespace Item

mutual

def toToml : Item → Toml
  | value written => written
  | table _ entries => .table (entriesToToml entries)
  | tables earlier last => .array (earlier ++ [.table (entriesToToml last)])

def entriesToToml : List (String × Item) → List (String × Toml)
  | [] => []
  | (key, item) :: rest => (key, item.toToml) :: entriesToToml rest

end

/-- The entries of the table at a path, changed; tables that are missing on the way are made with
the given origin, and values on the way refuse. With dotted keys the way leads only through tables
that no header defined. -/
def change (made : Origin) (f : Origin → Keyed Item → Option (Keyed Item)) :
    (path : List String) → Origin → Keyed Item → Option (Keyed Item)
  | [], origin, entries => f origin entries
  | key :: path, _, entries => do
    match entries.get? key with
    | none =>
      let inner ← change made f path made []
      return entries.set key (.table made inner)
    | some (.value _) => none
    | some (.tables earlier last) =>
      let last ← change made f path .header last
      return entries.set key (.tables earlier last)
    | some (.table origin inner) =>
      if made = .dotted ∧ origin = .header then none
      else
        let inner ← change made f path origin inner
        return entries.set key (.table origin inner)

/-- Adds a value under a dotted key; the last table on the way must have been made by the same kind
of key, and the name must be new. -/
def define (path : List String) (key : String) (value : Toml) (entries : Keyed Item) :
    Option (Keyed Item) :=
  change .dotted (fun origin entries =>
    if (path.isEmpty ∨ origin = .dotted) ∧ !entries.contains key then
      some (entries.set key (.value value))
    else none) path .header entries

/-- Opens the table of a header. A table that only lay on another path moves to the end. -/
def openTable (path : List String) (key : String) (entries : Keyed Item) : Option (Keyed Item) :=
  change .path (fun _ entries =>
    match entries.get? key with
    | none => some (entries.set key (.table .header []))
    | some (.table .path inner) => some ((entries.erase key).set key (.table .header inner))
    | _ => none) path .header entries

def openNext (path : List String) (key : String) (entries : Keyed Item) : Option (Keyed Item) :=
  change .path (fun _ entries =>
    match entries.get? key with
    | none => some (entries.set key (.tables [] []))
    | some (.tables earlier last) =>
      some (entries.set key (.tables (earlier ++ [.table (entriesToToml last)]) []))
    | _ => none) path .header entries

def defineIn (table : List String) (path : List String) (key : String) (value : Toml)
    (entries : Keyed Item) : Option (Keyed Item) :=
  change .path (fun _ entries => define path key value entries) table .header entries

end Item

end AtomicCss.Toml
