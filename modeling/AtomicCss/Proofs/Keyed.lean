import AtomicCss.Keyed
import AtomicCss.Proofs.Basic
import Mathlib.Data.List.Nodup

/-!
Lookups in lists of named entries: what a sort by names and a change of an entry leave.
-/

namespace AtomicCss.Keyed

variable {α : Type}

theorem get?_eq_find? (entries : Keyed α) (name : String) :
    get? entries name = (entries.find? fun entry => entry.1 = name).map (·.2) := by
  induction entries with
  | nil => rfl
  | cons entry rest ih =>
    by_cases here : entry.1 = name <;> simp [get?, here, ih]

theorem get?_append_eq_or (front back : Keyed α) (name : String) :
    get? (front ++ back) name = (get? front name).or (get? back name) := by
  rw [get?_eq_find?, List.find?_append, Option.map_or, ← get?_eq_find?, ← get?_eq_find?]

/-- Among distinct names a lookup finds the entry that there is. -/
theorem get?_eq_some {entries : Keyed α} (distinct : (entries.map (·.1)).Nodup) {name : String}
    {value : α} : get? entries name = some value ↔ (name, value) ∈ entries := by
  induction entries with
  | nil => simp [get?]
  | cons entry rest ih =>
    obtain ⟨fresh, distinct⟩ := List.nodup_cons.mp distinct
    rw [get?, List.mem_cons]
    split
    · next here =>
      have absent : (name, value) ∉ rest := by
        intro member
        exact fresh (List.mem_map.mpr ⟨_, member, here.symm⟩)
      simp [absent, Prod.ext_iff, here, eq_comm]
    · next other =>
      have different : (name, value) ≠ entry := by
        rintro rfl
        exact other rfl
      simp [different, ih distinct]

theorem get?_map {β : Type} (f : α → β) (entries : Keyed α) (name : String) :
    get? (entries.map fun entry => (entry.1, f entry.2)) name = (get? entries name).map f := by
  induction entries with
  | nil => rfl
  | cons entry rest ih =>
    simp only [List.map_cons, get?, ih]
    split <;> rfl

/-- Keeping some names keeps the lookups of those. -/
theorem get?_filter (keep : String → Bool) (entries : Keyed α) (name : String) :
    get? (entries.filter fun entry => keep entry.1) name =
      if keep name then get? entries name else none := by
  induction entries with
  | nil => simp [get?]
  | cons entry rest ih =>
    rw [List.filter_cons]
    by_cases here : entry.1 = name
    · cases kept : keep name <;> simp [get?, here, kept, ih]
    · split <;> simp [get?, here, ih]

theorem filter_name_eq (entries : Keyed α) (name : String) :
    get? (entries.filter fun entry => entry.1 = name) name = get? entries name := by
  rw [get?_eq_find?, get?_eq_find?, List.find?_filter]
  simp

/-- Sorting by names keeps the first entry of each name before the others. -/
theorem get?_mergeSort (entries : Keyed α) (name : String) :
    get? (entries.mergeSort fun first second => first.1 ≤ second.1) name = get? entries name := by
  rw [← filter_name_eq, filter_mergeSort, filter_name_eq]
  · intro first second third below above
    exact decide_eq_true (String.le_trans (of_decide_eq_true below) (of_decide_eq_true above))
  · intro first second
    simpa using String.le_total first.1 second.1
  · intro first second here there
    have same : first.1 = second.1 := (of_decide_eq_true here).trans (of_decide_eq_true there).symm
    exact decide_eq_true (same ▸ String.le_refl _)

theorem mem_of_get? {entries : Keyed α} {name : String} {value : α}
    (found : get? entries name = some value) : (name, value) ∈ entries := by
  rw [get?_eq_find?] at found
  obtain ⟨entry, first, rfl⟩ := Option.map_eq_some_iff.mp found
  have named := List.find?_some first
  rw [← of_decide_eq_true named]
  exact List.mem_of_find?_eq_some first

theorem mem_of_mem_erase {entries : Keyed α} {name : String} {entry : String × α}
    (member : entry ∈ erase entries name) : entry ∈ entries := by
  induction entries with
  | nil => cases member
  | cons head rest ih =>
    rw [erase] at member
    split at member
    · exact List.mem_cons_of_mem _ member
    · rcases List.mem_cons.mp member with here | there
      · exact here ▸ List.mem_cons_self
      · exact List.mem_cons_of_mem _ (ih there)

theorem mem_set {entries : Keyed α} {name : String} {value : α} {entry : String × α}
    (member : entry ∈ set entries name value) : entry ∈ entries ∨ entry = (name, value) := by
  induction entries with
  | nil => exact .inr (List.mem_singleton.mp member)
  | cons head rest ih =>
    rw [set] at member
    split at member
    · next same =>
      rcases List.mem_cons.mp member with here | there
      · exact .inr (same ▸ here)
      · exact .inl (List.mem_cons_of_mem _ there)
    · rcases List.mem_cons.mp member with here | there
      · exact .inl (here ▸ List.mem_cons_self)
      · exact (ih there).imp_left (List.mem_cons_of_mem _)

theorem mem_set_self (entries : Keyed α) (name : String) (value : α) :
    (name, value) ∈ set entries name value := by
  induction entries with
  | nil => exact List.mem_cons_self
  | cons entry rest ih =>
    rw [set]
    split
    · next here => exact here ▸ List.mem_cons_self
    · exact List.mem_cons_of_mem _ ih

theorem nodup_set {entries : Keyed α} (distinct : entries.names.Nodup) (name : String) (value : α) :
    (entries.set name value).names.Nodup := by
  induction entries with
  | nil => exact List.nodup_singleton name
  | cons entry rest ih =>
    obtain ⟨fresh, distinct⟩ := List.nodup_cons.mp distinct
    rw [set]
    split
    · exact List.nodup_cons.mpr ⟨fresh, distinct⟩
    · next different =>
      refine List.nodup_cons.mpr ⟨?_, ih distinct⟩
      intro member
      obtain ⟨other, inside, same⟩ := List.mem_map.mp member
      rcases mem_set inside with earlier | rfl
      · exact fresh (List.mem_map.mpr ⟨other, earlier, same⟩)
      · exact different same.symm

/-- Setting a name changes the entry that a lookup of it finds, and no other. -/
theorem mem_set_or {entries : Keyed α} {entry : String × α} (member : entry ∈ entries)
    (name : String) (value : α) :
    entry ∈ set entries name value ∨ (entry.1 = name ∧ get? entries name = some entry.2) := by
  induction entries with
  | nil => cases member
  | cons head rest ih =>
    rw [set, get?]
    split
    · next here =>
      rcases List.mem_cons.mp member with rfl | there
      · exact .inr ⟨here, rfl⟩
      · exact .inl (List.mem_cons_of_mem _ there)
    · rcases List.mem_cons.mp member with rfl | there
      · exact .inl List.mem_cons_self
      · exact (ih there).imp_left (List.mem_cons_of_mem _)

/-- Erasing a name takes away the entry that a lookup of it finds, and no other. -/
theorem mem_erase_or {entries : Keyed α} {entry : String × α} (member : entry ∈ entries)
    (name : String) :
    entry ∈ erase entries name ∨ (entry.1 = name ∧ get? entries name = some entry.2) := by
  induction entries with
  | nil => cases member
  | cons head rest ih =>
    rw [erase, get?]
    split
    · next here =>
      rcases List.mem_cons.mp member with rfl | there
      · exact .inr ⟨here, rfl⟩
      · exact .inl there
    · rcases List.mem_cons.mp member with rfl | there
      · exact .inl List.mem_cons_self
      · exact (ih there).imp_left (List.mem_cons_of_mem _)

def Lacks (entries : Keyed α) (name : String) : Prop := ∀ entry ∈ entries, entry.1 ≠ name

theorem Lacks.get? {entries : Keyed α} {name : String} (lacks : entries.Lacks name) :
    entries.get? name = none := by
  induction entries with
  | nil => rfl
  | cons entry rest ih =>
    obtain ⟨different, lacks⟩ := List.forall_mem_cons.mp lacks
    simp only [Keyed.get?, different, if_false, ih lacks]

theorem Lacks.erase {entries : Keyed α} {name : String} (lacks : entries.Lacks name) :
    entries.erase name = entries := by
  induction entries with
  | nil => rfl
  | cons entry rest ih =>
    obtain ⟨different, lacks⟩ := List.forall_mem_cons.mp lacks
    simp only [Keyed.erase, different, if_false, ih lacks]

theorem get?_append {front back : Keyed α} {name : String} (lacks : back.Lacks name) :
    get? (front ++ back) name = get? front name := by
  rw [get?_append_eq_or, lacks.get?, Option.or_none]

theorem erase_append (front : Keyed α) {back : Keyed α} {name : String} (lacks : back.Lacks name) :
    erase (front ++ back) name = erase front name ++ back := by
  induction front with
  | nil => exact lacks.erase
  | cons entry rest ih =>
    simp only [List.cons_append, erase]
    split
    · rfl
    · rw [ih, List.cons_append]

theorem set_append_of_get? {front : Keyed α} (back : Keyed α) {name : String} {current : α}
    (present : get? front name = some current) (value : α) :
    set (front ++ back) name value = set front name value ++ back := by
  induction front with
  | nil => cases present
  | cons entry rest ih =>
    simp only [get?] at present
    simp only [List.cons_append, set]
    split
    · rfl
    · next other => rw [ih (by simpa [other] using present), List.cons_append]

theorem get?_set_of_ne (entries : Keyed α) {name other : String} (different : other ≠ name)
    (value : α) : get? (set entries name value) other = get? entries other := by
  induction entries with
  | nil => simp [set, get?, different.symm]
  | cons entry rest ih =>
    simp only [set]
    split
    · next here => simp [get?, here, different.symm]
    · simp only [get?, ih]

theorem get?_erase_of_ne (entries : Keyed α) {name other : String} (different : other ≠ name) :
    get? (erase entries name) other = get? entries other := by
  induction entries with
  | nil => rfl
  | cons entry rest ih =>
    simp only [erase]
    split
    · next here => simp [get?, here, different.symm]
    · simp only [get?, ih]

theorem get?_eq_none_iff {entries : Keyed α} {name : String} :
    get? entries name = none ↔ name ∉ entries.names := by
  rw [get?_eq_find?, Option.map_eq_none_iff, List.find?_eq_none]
  simp only [names, List.mem_map, not_exists, not_and, decide_eq_true_eq]

theorem contains_iff {entries : Keyed α} {name : String} :
    entries.contains name = true ↔ name ∈ entries.names := by
  rw [contains, Option.isSome_iff_ne_none, ne_eq, get?_eq_none_iff, not_not]

/-- Setting a name that is there leaves all names in place. -/
theorem names_set_of_get? {entries : Keyed α} {name : String} {current : α}
    (present : get? entries name = some current) (value : α) :
    (set entries name value).names = entries.names := by
  induction entries with
  | nil => cases present
  | cons entry rest ih =>
    rw [set]
    split
    · rfl
    · next other =>
      rw [get?, if_neg other] at present
      exact congrArg (entry.1 :: ·) (ih present)

theorem names_erase (entries : Keyed α) (name : String) :
    (erase entries name).names = entries.names.erase name := by
  induction entries with
  | nil => rfl
  | cons entry rest ih =>
    rw [erase]
    split
    · next here => simp [names, here]
    · next other =>
      have kept : (names (entry :: rest)).erase name = entry.1 :: (names rest).erase name :=
        List.erase_cons_tail (by simpa using other)
      rw [kept, ← ih]
      rfl

theorem get?_set (entries : Keyed α) (name other : String) (value : α) :
    (entries.set name value).get? other = if other = name then some value
      else entries.get? other := by
  split
  · next same =>
    subst same
    induction entries with
    | nil => simp [set, get?]
    | cons entry rest ih => by_cases here : entry.1 = other <;> simp [set, get?, here, ih]
  · next different => exact get?_set_of_ne entries different value

theorem get?_erase {entries : Keyed α} (distinct : entries.names.Nodup) (name other : String) :
    (entries.erase name).get? other = if other = name then none else entries.get? other := by
  split
  · next same =>
    rw [same]
    apply get?_eq_none_iff.mpr
    rw [names_erase]
    exact distinct.not_mem_erase
  · next different => exact get?_erase_of_ne entries different

end AtomicCss.Keyed
