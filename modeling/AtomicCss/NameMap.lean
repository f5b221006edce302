/-!
Maps from names to values, listed by name.

Names compare by code point, which is also the order of their UTF-8 bytes. The entries stand in
strictly rising order, so each name has one entry.
-/

namespace AtomicCss

/-- A finite map whose entries stand in rising order of their names. -/
structure NameMap (α : Type) where
  entries : List (String × α)
  rising : entries.Pairwise fun first second => first.1 < second.1

namespace NameMap

variable {α β : Type}

def empty : NameMap α := ⟨[], .nil⟩

instance : Inhabited (NameMap α) := ⟨empty⟩

def insertEntry (name : String) (value : α) : List (String × α) → List (String × α)
  | [] => [(name, value)]
  | (existing, current) :: rest =>
    if name < existing then (name, value) :: (existing, current) :: rest
    else if name = existing then (name, value) :: rest
    else (existing, current) :: insertEntry name value rest

theorem mem_insertEntry {name : String} {value : α} {entries : List (String × α)}
    {entry : String × α} (member : entry ∈ insertEntry name value entries) :
    entry = (name, value) ∨ entry ∈ entries := by
  induction entries with
  | nil => simpa [insertEntry] using member
  | cons head rest ih =>
    simp only [insertEntry] at member
    split at member
    · simpa using member
    · split at member
      · rcases List.mem_cons.mp member with here | there
        · exact .inl here
        · exact .inr (List.mem_cons_of_mem _ there)
      · rcases List.mem_cons.mp member with here | there
        · exact .inr (here ▸ List.mem_cons_self)
        · rcases ih there with new | old
          · exact .inl new
          · exact .inr (List.mem_cons_of_mem _ old)

theorem rising_insertEntry (name : String) (value : α) {entries : List (String × α)}
    (rising : entries.Pairwise fun first second => first.1 < second.1) :
    (insertEntry name value entries).Pairwise fun first second => first.1 < second.1 := by
  induction entries with
  | nil => simp [insertEntry]
  | cons head rest ih =>
    obtain ⟨above, rest_rising⟩ := List.pairwise_cons.mp rising
    simp only [insertEntry]
    split
    · next less =>
      refine List.pairwise_cons.mpr ⟨fun entry member => ?_, rising⟩
      rcases List.mem_cons.mp member with here | there
      · exact here ▸ less
      · exact String.lt_trans less (above entry there)
    · split
      · next same =>
        refine List.pairwise_cons.mpr ⟨fun entry member => ?_, rest_rising⟩
        exact same ▸ above entry member
      · next notLess different =>
        refine List.pairwise_cons.mpr ⟨fun entry member => ?_, ih rest_rising⟩
        rcases mem_insertEntry member with new | old
        · have le : head.1 ≤ name := String.not_lt.mp notLess
          exact new ▸ Std.lt_of_le_of_ne le (Ne.symm different)
        · exact above entry old

def insert (map : NameMap α) (name : String) (value : α) : NameMap α :=
  ⟨insertEntry name value map.entries, rising_insertEntry name value map.rising⟩

def get? (map : NameMap α) (name : String) : Option α :=
  (map.entries.find? (fun entry => entry.1 = name)).map (·.2)

def contains (map : NameMap α) (name : String) : Bool := (map.get? name).isSome

def toList (map : NameMap α) : List (String × α) := map.entries

def names (map : NameMap α) : List String := map.entries.map (·.1)

def values (map : NameMap α) : List α := map.entries.map (·.2)

def size (map : NameMap α) : Nat := map.entries.length

def isEmpty (map : NameMap α) : Bool := map.entries.isEmpty

/-- Inserts the entries in turn: a later entry of a name replaces an earlier one. -/
def insertAll (map : NameMap α) (entries : List (String × α)) : NameMap α :=
  entries.foldl (fun built (name, value) => built.insert name value) map

def ofList (entries : List (String × α)) : NameMap α := empty.insertAll entries

def mapValues (f : String → α → β) (map : NameMap α) : NameMap β :=
  ⟨map.entries.map fun entry => (entry.1, f entry.1 entry.2),
    List.pairwise_map.mpr map.rising⟩

end NameMap

end AtomicCss
