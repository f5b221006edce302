import AtomicCss.NameMap
import AtomicCss.Proofs.Keyed

/-!
Maps by name: what a lookup finds is an entry, and no name has two. So maps with the same lookups
are equal, and inserting entries that a map holds already changes nothing.
-/

namespace AtomicCss.NameMap

variable {α β : Type}

theorem mem_of_get? {map : NameMap α} {name : String} {value : α}
    (found : map.get? name = some value) : (name, value) ∈ map.entries := by
  obtain ⟨entry, first, rfl⟩ := Option.map_eq_some_iff.mp found
  have named := List.find?_some first
  rw [← of_decide_eq_true named]
  exact List.mem_of_find?_eq_some first

theorem mem_names_of_get? {map : NameMap α} {name : String} {value : α}
    (found : map.get? name = some value) : name ∈ map.names :=
  List.mem_map.mpr ⟨(name, value), mem_of_get? found, rfl⟩

theorem nodup_names (map : NameMap α) : map.names.Nodup := by
  apply List.pairwise_map.mpr
  apply map.rising.imp
  intro first second less same
  exact String.lt_irrefl second.1 (same ▸ less)

theorem get?_mapValues (f : String → α → β) (map : NameMap α) (name : String) :
    (map.mapValues f).get? name = (map.get? name).map (f name) := by
  simp only [get?, mapValues, List.find?_map, Option.map_map]
  have same : ((fun entry => decide (entry.1 = name)) ∘ fun entry : String × α =>
      (entry.1, f entry.1 entry.2)) = fun entry => decide (entry.1 = name) := rfl
  rw [same]
  cases found : map.entries.find? fun entry => decide (entry.1 = name) with
  | none => rfl
  | some entry =>
    have named : entry.1 = name := by simpa using List.find?_some found
    simp [named]

theorem get?_eq_some {map : NameMap α} {name : String} {value : α} :
    map.get? name = some value ↔ (name, value) ∈ map.entries := by
  rw [get?, ← Keyed.get?_eq_find?]
  exact Keyed.get?_eq_some map.nodup_names

theorem eq_of_get? {first second : NameMap α} (same : ∀ name, first.get? name = second.get? name) :
    first = second := by
  obtain ⟨entries, rising⟩ := first
  obtain ⟨others, rising_others⟩ := second
  have members : ∀ entry : String × α, entry ∈ entries ↔ entry ∈ others := by
    rintro ⟨name, value⟩
    have left : get? ⟨entries, rising⟩ name = some value ↔ (name, value) ∈ entries := get?_eq_some
    rw [← left, same, get?_eq_some]
  have distinct {listed : List (String × α)}
      (rising : listed.Pairwise fun first second => first.1 < second.1) : listed.Nodup :=
    (nodup_names ⟨listed, rising⟩).of_map
  have perm := (List.perm_ext_iff_of_nodup (distinct rising) (distinct rising_others)).mpr members
  have equal := perm.eq_of_pairwise (fun first second _ _ less greater =>
    absurd (String.lt_trans less greater) (String.lt_irrefl _)) rising rising_others
  simp only [equal]

theorem get?_insert (map : NameMap α) (name : String) (value : α) (other : String) :
    (map.insert name value).get? other = if name = other then some value else map.get? other := by
  simp only [get?, insert]
  induction map.entries with
  | nil =>
    rw [insertEntry]
    split <;> next here => simp [here]
  | cons head rest ih =>
    rw [insertEntry]
    split
    · split <;> next here => simp [here]
    · split
      · next same =>
        split
        · next here => simp [here]
        · next different => simp [different, ← same]
      · next different =>
        by_cases first : head.1 = other
        · have apart : name ≠ other := fun same => different (same.trans first.symm)
          simp [first, apart]
        · simp only [first, decide_false, List.find?_cons]
          exact ih

/-- The last entry of a name is found, or else what was there before. -/
theorem get?_insertAll (map : NameMap α) (entries : List (String × α)) (name : String) :
    (map.insertAll entries).get? name = (Keyed.get? entries.reverse name).or (map.get? name) := by
  induction entries generalizing map with
  | nil => rfl
  | cons entry rest ih =>
    have own : Keyed.get? [entry] name = if entry.1 = name then some entry.2 else none := rfl
    rw [insertAll, List.foldl_cons, ← insertAll, ih, get?_insert, List.reverse_cons,
      Keyed.get?_append_eq_or, own, Option.or_assoc]
    split <;> rfl

theorem get?_insertAll_of_not_mem (map : NameMap α) {entries : List (String × α)} {name : String}
    (absent : name ∉ entries.map (·.1)) : (map.insertAll entries).get? name = map.get? name := by
  have none_given : Keyed.get? entries.reverse name = none := by
    rw [Keyed.get?_eq_find?, Option.map_eq_none_iff, List.find?_eq_none]
    intro entry member
    have other : entry.1 ≠ name := fun same =>
      absent (List.mem_map.mpr ⟨entry, List.mem_reverse.mp member, same⟩)
    simpa using other
  rw [get?_insertAll, none_given, Option.none_or]

theorem get?_insertAll_of_mem (map : NameMap α) {entries : List (String × α)}
    (distinct : (entries.map (·.1)).Nodup) {name : String} {value : α}
    (member : (name, value) ∈ entries) :
    (map.insertAll entries).get? name = some value := by
  have distinct_reversed : (entries.reverse.map (·.1)).Nodup := by
    rw [List.map_reverse]
    exact List.nodup_reverse.mpr distinct
  have given := (Keyed.get?_eq_some distinct_reversed).mpr (List.mem_reverse.mpr member)
  rw [get?_insertAll, given, Option.some_or]

theorem insertAll_again (map : NameMap α) (entries : List (String × α)) :
    (map.insertAll entries).insertAll entries = map.insertAll entries := by
  apply eq_of_get?
  intro name
  rw [get?_insertAll, get?_insertAll, ← Option.or_assoc, Option.or_self]

end AtomicCss.NameMap
