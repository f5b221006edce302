import Mathlib.Data.List.Basic
import Mathlib.Data.List.Sort
import AtomicCss.Proofs.Basic
import AtomicCss.Sheet.Basic

/-!
Where a new rule goes.

The six lists of a sheet read as one list in cascade order, and inserting a rule splits that list in
two: what may stand before the rule stays in front of it, and all else comes after it. Bisection
finds this place because every group stays sorted by rank.
-/

namespace AtomicCss

theorem insertIdx_length_append {α : Type} (front back : List α) (item : α) :
    (front ++ back).insertIdx front.length item = front ++ item :: back := by
  induction front with
  | nil => simp
  | cons head rest ih => simpa using ih

/-- Bisection finds the point up to which a test holds and from which on it fails. -/
theorem bisect_eq {test : Nat → Bool} {low high point : Nat} (above : low ≤ point)
    (below : point ≤ high) (holds : ∀ index, index < point → test index = true)
    (fails : ∀ index, point ≤ index → index < high → test index = false) :
    bisect test low high = point := by
  fun_induction bisect test low high with
  | case1 low high less middle passed ih =>
    have middle_lt : middle < high := by omega
    apply ih _ below fails
    by_contra beyond
    have failed := fails middle (by omega) middle_lt
    simp [failed] at passed
  | case2 low high less middle failed ih =>
    have point_le : point ≤ middle := by
      by_contra beyond
      exact failed (holds middle (by omega))
    exact ih above point_le fun index after before => fails index after (by omega)
  | case3 low high stop => omega

namespace SheetRule

def level (first second : SheetRule) : Bool := first.before second && second.before first

theorem before_iff {first second : SheetRule} :
    first.before second = true ↔
      first.group.order < second.group.order ∨
        first.group.order = second.group.order ∧ first.rank ≤ second.rank := by
  simp [before]

theorem before_trans (first second third : SheetRule) (left : first.before second = true)
    (right : second.before third = true) : first.before third = true := by
  rw [before_iff] at left right ⊢
  omega

theorem before_total (first second : SheetRule) :
    (first.before second || second.before first) = true := by
  rw [Bool.or_eq_true, before_iff, before_iff]
  omega

end SheetRule

namespace SheetGroup

theorem order_injective {first second : SheetGroup} (same : first.order = second.order) :
    first = second := by
  cases first <;> cases second <;> first | rfl | cases same

/-- The groups before and after a group, in cascade order. -/
theorem all_split (group : SheetGroup) :
    ∃ front back, all = front ++ group :: back ∧
      (∀ earlier ∈ front, earlier.order < group.order) ∧
      (∀ later ∈ back, group.order < later.order) ∧
      all.filter (·.order < group.order) = front := by
  cases group
  · exact ⟨[], [themed, global, atomic, nested, conditional], by decide⟩
  · exact ⟨[imports], [global, atomic, nested, conditional], by decide⟩
  · exact ⟨[imports, themed], [atomic, nested, conditional], by decide⟩
  · exact ⟨[imports, themed, global], [nested, conditional], by decide⟩
  · exact ⟨[imports, themed, global, atomic], [conditional], by decide⟩
  · exact ⟨[imports, themed, global, atomic, nested], [], by decide⟩

end SheetGroup

namespace Sheet

def rulesOf (sheet : Sheet) (groups : List SheetGroup) : List SheetRule :=
  groups.flatMap fun group => (sheet.group group).map (·.inGroup group)

theorem rules_eq_rulesOf (sheet : Sheet) : sheet.rules = sheet.rulesOf SheetGroup.all := rfl

theorem rulesOf_append (sheet : Sheet) (first second : List SheetGroup) :
    sheet.rulesOf (first ++ second) = sheet.rulesOf first ++ sheet.rulesOf second :=
  List.flatMap_append

theorem rulesOf_cons (sheet : Sheet) (group : SheetGroup) (rest : List SheetGroup) :
    sheet.rulesOf (group :: rest) =
      (sheet.group group).map (·.inGroup group) ++ sheet.rulesOf rest := rfl

theorem group_of_mem_rulesOf {sheet : Sheet} {groups : List SheetGroup} {rule : SheetRule}
    (member : rule ∈ sheet.rulesOf groups) : rule.group ∈ groups := by
  obtain ⟨group, listed, held⟩ := List.mem_flatMap.mp member
  obtain ⟨ranked, -, rfl⟩ := List.mem_map.mp held
  exact listed

/-- Every group of the sheet is sorted by rank. -/
def Sorted (sheet : Sheet) : Prop :=
  ∀ group, (sheet.group group).Pairwise fun first second => first.rank ≤ second.rank

theorem sorted_empty (pending : Option (List Delivery)) :
    ({ empty with pending } : Sheet).Sorted := by
  intro group
  simp [Sheet.group, empty]

theorem split_at_rank {rules : List RankedRule} (rank : Nat)
    (sorted : rules.Pairwise fun first second => first.rank ≤ second.rank) :
    ∃ front back, rules = front ++ back ∧ (∀ rule ∈ front, rule.rank ≤ rank) ∧
      (∀ rule ∈ back, rank < rule.rank) := by
  induction rules with
  | nil => exact ⟨[], [], by simp⟩
  | cons head rest ih =>
    obtain ⟨above, rest_sorted⟩ := List.pairwise_cons.mp sorted
    by_cases low : head.rank ≤ rank
    · obtain ⟨front, back, rfl, front_low, back_high⟩ := ih rest_sorted
      exact ⟨head :: front, back, rfl, List.forall_mem_cons.mpr ⟨low, front_low⟩, back_high⟩
    · have head_high : rank < head.rank := Nat.lt_of_not_le low
      refine ⟨[], head :: rest, rfl, by simp, List.forall_mem_cons.mpr ⟨head_high, ?_⟩⟩
      intro rule member
      exact Nat.lt_of_lt_of_le head_high (above rule member)

/-- The place of a rank in a sorted group is the point at which the group splits. -/
theorem position_append {front back : List RankedRule} {rank : Nat}
    (front_low : ∀ rule ∈ front, rule.rank ≤ rank) (back_high : ∀ rule ∈ back, rank < rule.rank) :
    position (front ++ back) rank = front.length := by
  apply bisect_eq (Nat.zero_le _) (by simp)
  · intro index inside
    rw [List.getElem?_append_left inside, List.getElem?_eq_getElem inside]
    simpa using front_low _ (List.getElem_mem inside)
  · intro index outside inside
    rw [List.length_append] at inside
    have behind : index - front.length < back.length := by omega
    rw [List.getElem?_append_right outside, List.getElem?_eq_getElem behind]
    simpa using back_high _ (List.getElem_mem behind)

def withRule (rules : List RankedRule) (rule : RankedRule) : List RankedRule :=
  rules.insertIdx (position rules rule.rank) rule

theorem withRule_splits {rules : List RankedRule} (rule : RankedRule)
    (sorted : rules.Pairwise fun first second => first.rank ≤ second.rank) :
    ∃ front back, rules = front ++ back ∧ position rules rule.rank = front.length ∧
      withRule rules rule = front ++ rule :: back ∧
      (∀ earlier ∈ front, earlier.rank ≤ rule.rank) ∧ (∀ later ∈ back, rule.rank < later.rank) := by
  obtain ⟨front, back, rfl, front_low, back_high⟩ := split_at_rank rule.rank sorted
  have place := position_append front_low back_high
  refine ⟨front, back, rfl, place, ?_, front_low, back_high⟩
  rw [withRule, place, insertIdx_length_append]

theorem sorted_withRule {rules : List RankedRule} (rule : RankedRule)
    (sorted : rules.Pairwise fun first second => first.rank ≤ second.rank) :
    (withRule rules rule).Pairwise fun first second => first.rank ≤ second.rank := by
  obtain ⟨front, back, rfl, -, placed, front_low, back_high⟩ := withRule_splits rule sorted
  rw [placed]
  apply pairwise_insert sorted front_low
  intro later member
  exact (back_high later member).le

def put (sheet : Sheet) (group : SheetGroup) (rules : List RankedRule) : Sheet :=
  { sheet with groups := sheet.groups.set group.order rules group.order_lt }

theorem group_put (sheet : Sheet) (group other : SheetGroup) (rules : List RankedRule) :
    (sheet.put group rules).group other = if other = group then rules else sheet.group other := by
  split
  · next same => simp [Sheet.group, put, SheetGroup.place, same]
  · next different =>
    have apart : group.order ≠ other.order := by
      intro same
      exact different (SheetGroup.order_injective same.symm)
    simp [Sheet.group, put, SheetGroup.place, apart]

theorem rulesOf_put_of_not_mem {sheet : Sheet} {group : SheetGroup} {rules : List RankedRule}
    {groups : List SheetGroup} (absent : group ∉ groups) :
    (sheet.put group rules).rulesOf groups = sheet.rulesOf groups := by
  unfold rulesOf
  rw [List.flatMap_def, List.flatMap_def]
  congr 1
  apply List.map_congr_left
  intro other member
  have different : other ≠ group := by
    rintro rfl
    exact absent member
  rw [group_put, if_neg different]

theorem length_rulesOf (sheet : Sheet) (groups : List SheetGroup) :
    (sheet.rulesOf groups).length =
      (groups.map fun group => (sheet.group group).length).foldr (· + ·) 0 := by
  induction groups with
  | nil => rfl
  | cons group rest ih => simp [rulesOf_cons, ih]

theorem insert_of_seen {sheet : Sheet} {hash : UInt64} (seen : hash ∈ sheet.seen)
    (group : SheetGroup) (rank : Nat) (css : String) :
    sheet.insert group rank hash css = (none, sheet) := by
  simp [insert, seen]

/-- A rule that goes to `index` splits rules into those that may stand before it and all others. -/
def Splits (rule : SheetRule) (index : Nat) (rules after : List SheetRule) : Prop :=
  ∃ front back, rules = front ++ back ∧ after = front ++ rule :: back ∧ index = front.length ∧
    (∀ earlier ∈ front, earlier.before rule = true) ∧ (∀ later ∈ back, later.before rule = false)

theorem splits_put {sheet : Sheet} (sorted : sheet.Sorted) (group : SheetGroup)
    (rule : RankedRule) :
    Splits (rule.inGroup group) (sheet.offset group + position (sheet.group group) rule.rank)
      sheet.rules (sheet.put group (withRule (sheet.group group) rule)).rules := by
  obtain ⟨front, back, split, place, placed, front_low, back_high⟩ :=
    withRule_splits rule (sorted group)
  obtain ⟨frontGroups, backGroups, all_eq, earlier, later, filtered⟩ := group.all_split
  have front_apart : group ∉ frontGroups := by
    intro member
    exact Nat.lt_irrefl _ (earlier group member)
  have back_apart : group ∉ backGroups := by
    intro member
    exact Nat.lt_irrefl _ (later group member)
  refine ⟨sheet.rulesOf frontGroups ++ front.map (·.inGroup group),
    back.map (·.inGroup group) ++ sheet.rulesOf backGroups, ?_, ?_, ?_, ?_, ?_⟩
  · rw [rules_eq_rulesOf, all_eq, rulesOf_append, rulesOf_cons, split]
    simp
  · rw [rules_eq_rulesOf, all_eq, rulesOf_append, rulesOf_cons, group_put, if_pos rfl, placed,
      rulesOf_put_of_not_mem front_apart, rulesOf_put_of_not_mem back_apart]
    simp
  · rw [offset, filtered, place, List.length_append, length_rulesOf, List.length_map]
  · intro other member
    rw [SheetRule.before_iff]
    rcases List.mem_append.mp member with above | same
    · exact .inl (earlier _ (group_of_mem_rulesOf above))
    · obtain ⟨ranked, held, rfl⟩ := List.mem_map.mp same
      exact .inr ⟨rfl, front_low ranked held⟩
  · intro other member
    rw [Bool.eq_false_iff, ne_eq, SheetRule.before_iff]
    rcases List.mem_append.mp member with same | below
    · obtain ⟨ranked, held, rfl⟩ := List.mem_map.mp same
      have high := back_high ranked held
      simp only [RankedRule.inGroup]
      omega
    · have behind := later _ (group_of_mem_rulesOf below)
      simp only [RankedRule.inGroup]
      omega

theorem sorted_put {sheet : Sheet} (sorted : sheet.Sorted) (group : SheetGroup)
    (rule : RankedRule) :
    (sheet.put group (withRule (sheet.group group) rule)).Sorted := by
  intro other
  rw [group_put]
  split
  · exact sorted_withRule rule (sorted group)
  · exact sorted other

/-- A new rule splits the rules of a sorted sheet, and the answer is where it stands. -/
theorem insert_of_fresh {sheet : Sheet} {hash : UInt64} (sorted : sheet.Sorted)
    (fresh : hash ∉ sheet.seen) (group : SheetGroup) (rank : Nat) (css : String) :
    ∃ index after, sheet.insert group rank hash css = (some index, after) ∧
      Splits ⟨group, rank, css⟩ index sheet.rules after.rules ∧ after.Sorted ∧
      after.seen = hash :: sheet.seen ∧
      after.pending = sheet.pending.map (· ++ [⟨css, index⟩]) := by
  refine ⟨_, _, by rw [insert, if_neg (by simpa using fresh)], ?_, ?_, rfl, rfl⟩
  · exact splits_put sorted group ⟨rank, css⟩
  · exact sorted_put sorted group ⟨rank, css⟩

end Sheet

end AtomicCss
