import Mathlib.Data.List.Nodup

/-!
In which order two items of a list stand.

The first of two items stands before the second if the pair of them is a sublist. In a list without
repetitions two items stand in one order only, and in the same order as in every part that has both.
-/

namespace AtomicCss

variable {α : Type} {first second : α} {items part : List α}

theorem pair_sublist_cons {head : α} :
    [first, second].Sublist (head :: items) ↔
      [first, second].Sublist items ∨ first = head ∧ second ∈ items := by
  rw [List.cons_sublist_cons', List.singleton_sublist]

theorem mem_of_pair_sublist (placed : [first, second].Sublist items) :
    first ∈ items ∧ second ∈ items :=
  ⟨placed.subset List.mem_cons_self, placed.subset (List.mem_cons_of_mem _ List.mem_cons_self)⟩

theorem pair_sublist_or (left : first ∈ items) (right : second ∈ items)
    (different : first ≠ second) :
    [first, second].Sublist items ∨ [second, first].Sublist items := by
  induction items with
  | nil => cases left
  | cons head rest ih =>
    rw [pair_sublist_cons, pair_sublist_cons]
    rcases List.mem_cons.mp left with rfl | inside
    · rcases List.mem_cons.mp right with rfl | behind
      · exact absurd rfl different
      · exact .inl (.inr ⟨rfl, behind⟩)
    · rcases List.mem_cons.mp right with rfl | behind
      · exact .inr (.inr ⟨rfl, inside⟩)
      · exact (ih inside behind).imp .inl .inl

theorem not_pair_sublist_swap (distinct : items.Nodup) (placed : [first, second].Sublist items) :
    ¬ [second, first].Sublist items := by
  induction items with
  | nil => cases placed
  | cons head rest ih =>
    obtain ⟨fresh, distinct⟩ := List.nodup_cons.mp distinct
    rw [pair_sublist_cons] at placed ⊢
    rintro (swapped | ⟨rfl, member⟩)
    · rcases placed with placed | ⟨rfl, -⟩
      · exact ih distinct placed swapped
      · exact fresh (mem_of_pair_sublist swapped).2
    · rcases placed with placed | ⟨rfl, -⟩
      · exact fresh (mem_of_pair_sublist placed).2
      · exact fresh member

/-- An order that holds in one list whenever it holds in another holds in both alike, if the first
list repeats nothing. -/
theorem pair_sublist_iff {others : List α} (distinct : items.Nodup)
    (left : first ∈ others) (right : second ∈ others) (different : first ≠ second)
    (forward : [first, second].Sublist others → [first, second].Sublist items)
    (backward : [second, first].Sublist others → [second, first].Sublist items) :
    [first, second].Sublist others ↔ [first, second].Sublist items := by
  constructor
  · exact forward
  · intro placed
    rcases pair_sublist_or left right different with same | swapped
    · exact same
    · exact absurd (backward swapped) (not_pair_sublist_swap distinct placed)

/-- A part has its items in the order of the whole. -/
theorem pair_sublist_part (distinct : items.Nodup) (within : part.Sublist items)
    (left : first ∈ part) (right : second ∈ part) (different : first ≠ second) :
    [first, second].Sublist part ↔ [first, second].Sublist items :=
  pair_sublist_iff distinct left right different (·.trans within) (·.trans within)

theorem pair_sublist_append {front back : List α} :
    [first, second].Sublist (front ++ back) ↔
      [first, second].Sublist front ∨ (first ∈ front ∧ second ∈ back) ∨
        [first, second].Sublist back := by
  induction front with
  | nil => simp
  | cons head rest ih =>
    simp only [List.cons_append, pair_sublist_cons, ih, List.mem_append, List.mem_cons]
    constructor
    · rintro ((same | ⟨inside, behind⟩ | later) | ⟨rfl, here | behind⟩)
      · exact .inl (.inl same)
      · exact .inr (.inl ⟨.inr inside, behind⟩)
      · exact .inr (.inr later)
      · exact .inl (.inr ⟨rfl, here⟩)
      · exact .inr (.inl ⟨.inl rfl, behind⟩)
    · rintro ((same | ⟨rfl, here⟩) | ⟨rfl | inside, behind⟩ | later)
      · exact .inl (.inl same)
      · exact .inr ⟨rfl, .inl here⟩
      · exact .inr ⟨rfl, .inr behind⟩
      · exact .inl (.inr (.inl ⟨inside, behind⟩))
      · exact .inl (.inr (.inr later))

/-- What stands before an item of the front stands in the front. -/
theorem pair_sublist_front {front back : List α} (distinct : (front ++ back).Nodup)
    (early : second ∈ front) :
    [first, second].Sublist (front ++ back) ↔ [first, second].Sublist front := by
  have absent : second ∉ back := fun late =>
    (List.nodup_append.mp distinct).2.2 second early second late rfl
  rw [pair_sublist_append]
  constructor
  · rintro (same | ⟨-, late⟩ | later)
    · exact same
    · exact absurd late absent
    · exact absurd (mem_of_pair_sublist later).2 absent
  · exact .inl

variable [DecidableEq α]

theorem mem_append_new {item : α} {front own : List α} (member : item ∈ own) :
    item ∈ front ++ own.filter (· ∉ front) := by
  by_cases old : item ∈ front
  · exact List.mem_append_left _ old
  · exact List.mem_append_right _ (List.mem_filter.mpr ⟨member, by simpa using old⟩)

/-- Items that are added as far as they are new keep their order, unless the second one was there
before the first. -/
theorem pair_sublist_append_new {front own : List α} (placed : [first, second].Sublist own) :
    [first, second].Sublist (front ++ own.filter (· ∉ front)) ↔
      second ∉ front ∨ [first, second].Sublist front := by
  rw [pair_sublist_append]
  constructor
  · rintro (same | ⟨-, behind⟩ | later)
    · exact .inr same
    · exact .inl (by simpa using (List.mem_filter.mp behind).2)
    · exact .inl (by simpa using (List.mem_filter.mp (mem_of_pair_sublist later).2).2)
  · rintro (new | same)
    · have behind : second ∈ own.filter (· ∉ front) :=
        List.mem_filter.mpr ⟨(mem_of_pair_sublist placed).2, by simpa using new⟩
      by_cases old : first ∈ front
      · exact .inr (.inl ⟨old, behind⟩)
      · have kept := placed.filter (· ∉ front)
        simp only [List.filter_cons, old, new, not_false_eq_true, decide_true, if_true,
          List.filter_nil] at kept
        exact .inr (.inr kept)
    · exact .inl same

end AtomicCss
