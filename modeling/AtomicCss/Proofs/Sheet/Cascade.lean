import AtomicCss.Proofs.Basic
import AtomicCss.Proofs.Sheet.Insertion

/-!
The cascade order of a sheet.

However groups and ranks alternate, the rules of a sheet are the stable sort by group and rank of
the insertions whose hash had not come before, and each insertion answers where its rule then
stands.
-/

namespace AtomicCss

namespace SheetRule

/-- Rules in cascade order, those of one level in the order of a list. -/
structure StableOrder (taken rules : List SheetRule) : Prop where
  ordered : rules.Pairwise fun first second => first.before second = true
  stable : ∀ rule : SheetRule, rules.filter rule.level = taken.filter rule.level

/-- A list has one stable order. -/
theorem StableOrder.unique {taken first second : List SheetRule} (left : StableOrder taken first)
    (right : StableOrder taken second) : first = second :=
  eq_of_levels before_total left.ordered right.ordered
    fun rule => (left.stable rule).trans (right.stable rule).symm

theorem StableOrder.mem {taken rules : List SheetRule} (order : StableOrder taken rules)
    {rule : SheetRule} (member : rule ∈ rules) : rule ∈ taken := by
  have before : rule.before rule = true := by simpa using before_total rule rule
  have kept := List.mem_filter.mpr ⟨member, show rule.level rule = true by simp [level, before]⟩
  rw [order.stable] at kept
  exact List.mem_of_mem_filter kept

theorem StableOrder.congr {taken others rules : List SheetRule} (order : StableOrder taken rules)
    (same : ∀ rule : SheetRule, others.filter rule.level = taken.filter rule.level) :
    StableOrder others rules where
  ordered := order.ordered
  stable rule := (order.stable rule).trans (same rule).symm

theorem before_of_level {rule first second : SheetRule} (left : rule.level first = true)
    (right : rule.level second = true) : first.before second = true := by
  simp only [level, Bool.and_eq_true, before_iff] at left right ⊢
  omega

theorem group_of_level {rule other : SheetRule} (same : rule.level other = true) :
    other.group = rule.group := by
  simp only [level, Bool.and_eq_true, before_iff] at same
  apply SheetGroup.order_injective
  omega

theorem stableOrder_mergeSort (rules : List SheetRule) :
    StableOrder rules (rules.mergeSort before) where
  ordered := List.pairwise_mergeSort before_trans before_total rules
  stable _ := filter_mergeSort before_trans before_total (fun _ _ => before_of_level) rules

/-- A rule that goes behind all that may stand before it keeps the order stable. -/
theorem StableOrder.splits {taken rules after : List SheetRule} {rule : SheetRule} {index : Nat}
    (order : StableOrder taken rules) (split : Sheet.Splits rule index rules after) :
    StableOrder (taken ++ [rule]) after := by
  obtain ⟨front, back, rfl, rfl, -, front_before, back_after⟩ := split
  constructor
  · apply pairwise_insert order.ordered front_before
    intro later member
    simpa [back_after later member] using before_total rule later
  · intro other
    have kept := order.stable other
    rw [List.filter_append] at kept
    rw [List.filter_append, List.filter_append, ← kept, List.filter_cons]
    by_cases same : other.level rule = true
    · -- Nothing of the rule's level stands behind it.
      have none_behind : back.filter other.level = [] := by
        rw [List.filter_eq_nil_iff]
        intro later member later_same
        have may_stand := before_of_level later_same same
        simp [back_after later member] at may_stand
      simp [same, none_behind]
    · simp [same]

theorem StableOrder.refl {rules : List SheetRule}
    (ordered : rules.Pairwise fun first second => first.before second = true) :
    StableOrder rules rules :=
  ⟨ordered, fun _ => rfl⟩

/-- Rules that were put in order may be put in order again together with further ones. -/
theorem StableOrder.trans {first second third more others : List SheetRule}
    (left : StableOrder (first ++ more) second) (right : StableOrder (second ++ others) third) :
    StableOrder (first ++ (more ++ others)) third where
  ordered := right.ordered
  stable rule := by
    rw [right.stable, List.filter_append, left.stable, ← List.filter_append, List.append_assoc]

end SheetRule

namespace Sheet

/-- A rule splits the rules that pass a test as it does all rules, if it passes the test itself. -/
theorem Splits.filter {rule : SheetRule} {index : Nat} {rules after : List SheetRule}
    (split : Splits rule index rules after) (keep : SheetRule → Bool) (kept : keep rule = true) :
    ∃ place, Splits rule place (rules.filter keep) (after.filter keep) := by
  obtain ⟨front, back, rfl, rfl, -, front_before, back_after⟩ := split
  refine ⟨_, front.filter keep, back.filter keep, by simp, by simp [kept], rfl, ?_, ?_⟩
  · intro earlier member
    exact front_before earlier (List.mem_of_mem_filter member)
  · intro later member
    exact back_after later (List.mem_of_mem_filter member)

theorem Splits.filter_of_not {rule : SheetRule} {index : Nat} {rules after : List SheetRule}
    (split : Splits rule index rules after) {keep : SheetRule → Bool}
    (dropped : keep rule = false) :
    after.filter keep = rules.filter keep := by
  obtain ⟨front, back, rfl, rfl, -, -, -⟩ := split
  simp [dropped]

end Sheet

structure Insertion where
  group : SheetGroup
  rank : Nat
  hash : UInt64
  css : String
  deriving DecidableEq, Repr

namespace Insertion

def rule (insertion : Insertion) : SheetRule := ⟨insertion.group, insertion.rank, insertion.css⟩

/-- The insertions whose hash comes neither in `earlier` nor before them, in order. -/
def firsts (earlier : List UInt64) : List Insertion → List Insertion
  | [] => []
  | insertion :: rest =>
    if insertion.hash ∈ earlier then firsts earlier rest
    else insertion :: firsts (insertion.hash :: earlier) rest

theorem firsts_sublist (earlier : List UInt64) (insertions : List Insertion) :
    (firsts earlier insertions).Sublist insertions := by
  induction insertions generalizing earlier with
  | nil => exact List.Sublist.refl _
  | cons insertion rest ih =>
    rw [firsts]
    split
    · exact (ih earlier).cons insertion
    · exact (ih _).cons_cons insertion

theorem firsts_subset (earlier : List UInt64) (insertions : List Insertion) :
    firsts earlier insertions ⊆ insertions :=
  (firsts_sublist earlier insertions).subset

/-- All insertions come first with their hash exactly if no hash comes twice. -/
theorem length_firsts_eq_iff {earlier : List UInt64} {insertions : List Insertion} :
    (firsts earlier insertions).length = insertions.length ↔
      (insertions.map hash).Nodup ∧ ∀ insertion ∈ insertions, insertion.hash ∉ earlier := by
  induction insertions generalizing earlier with
  | nil => simp [firsts]
  | cons insertion rest ih =>
    by_cases came : insertion.hash ∈ earlier
    · have shorter := (firsts_sublist earlier rest).length_le
      rw [firsts, if_pos came]
      simp only [List.length_cons, List.forall_mem_cons, came]
      constructor
      · omega
      · simp
    · rw [firsts, if_neg came, List.length_cons, List.length_cons, Nat.add_right_cancel_iff, ih]
      simp only [List.map_cons, List.nodup_cons, List.mem_cons, List.mem_map]
      grind

/-- The insertions of a part that comes first with its hashes, if no other insertion has one of
these. -/
theorem filter_firsts {keep : Insertion → Bool} {insertions : List Insertion}
    {earlier others : List UInt64}
    (apart : ∀ first ∈ insertions, ∀ second ∈ insertions, first.hash = second.hash →
      keep first = keep second)
    (same : ∀ insertion ∈ insertions, keep insertion = true →
      (insertion.hash ∈ others ↔ insertion.hash ∈ earlier)) :
    (firsts earlier insertions).filter keep = firsts others (insertions.filter keep) := by
  induction insertions generalizing earlier others with
  | nil => rfl
  | cons insertion rest ih =>
    obtain ⟨same_own, same_rest⟩ := List.forall_mem_cons.mp same
    have apart_rest : ∀ first ∈ rest, ∀ second ∈ rest, first.hash = second.hash →
        keep first = keep second :=
      fun first left second right => apart first (.tail _ left) second (.tail _ right)
    cases kept : keep insertion with
    | false =>
      rw [List.filter_cons_of_neg (by simp [kept]), firsts]
      split
      · exact ih apart_rest same_rest
      · rw [List.filter_cons_of_neg (by simp [kept])]
        apply ih apart_rest
        intro other member kept_other
        have different : other.hash ≠ insertion.hash := by
          intro equal
          have alike := apart other (.tail _ member) insertion (.head _) equal
          simp [kept, kept_other] at alike
        simp [different, same_rest other member kept_other]
    | true =>
      rw [List.filter_cons_of_pos kept, firsts, firsts]
      by_cases came : insertion.hash ∈ earlier
      · rw [if_pos came, if_pos ((same_own kept).mpr came)]
        exact ih apart_rest same_rest
      · rw [if_neg came, if_neg (mt (same_own kept).mp came), List.filter_cons_of_pos kept]
        congr 1
        apply ih apart_rest
        intro other member kept_other
        simp [same_rest other member kept_other]

end Insertion

namespace Sheet

def take (sheet : Sheet) (insertion : Insertion) : Option Nat × Sheet :=
  sheet.insert insertion.group insertion.rank insertion.hash insertion.css

def insertAll (sheet : Sheet) (insertions : List Insertion) : Sheet :=
  insertions.foldl (fun sheet insertion => (sheet.take insertion).2) sheet

def fresh (pending : Option (List Delivery)) : Sheet := { empty with pending }

theorem mem_seen_take {sheet : Sheet} (insertion : Insertion) (hash : UInt64) :
    hash ∈ (sheet.take insertion).2.seen ↔ hash ∈ sheet.seen ∨ hash = insertion.hash := by
  by_cases seen : insertion.hash ∈ sheet.seen
  · rw [take, insert_of_seen seen]
    constructor
    · exact .inl
    · rintro (old | rfl)
      · exact old
      · exact seen
  · simp [take, insert, seen, or_comm]

theorem mem_seen_insertAll (sheet : Sheet) (insertions : List Insertion) (hash : UInt64) :
    hash ∈ (sheet.insertAll insertions).seen ↔
      hash ∈ sheet.seen ∨ hash ∈ insertions.map Insertion.hash := by
  induction insertions generalizing sheet with
  | nil => simp [insertAll]
  | cons insertion rest ih =>
    have step := ih (sheet.take insertion).2
    rw [mem_seen_take] at step
    simpa [insertAll, or_assoc] using step

theorem stableOrder_insertAll {sheet : Sheet} {taken : List SheetRule} (sorted : sheet.Sorted)
    (order : SheetRule.StableOrder taken sheet.rules) (insertions : List Insertion) :
    (sheet.insertAll insertions).Sorted ∧
      SheetRule.StableOrder (taken ++ (Insertion.firsts sheet.seen insertions).map Insertion.rule)
        (sheet.insertAll insertions).rules := by
  induction insertions generalizing sheet taken with
  | nil => simpa [insertAll, Insertion.firsts] using ⟨sorted, order⟩
  | cons insertion rest ih =>
    by_cases seen : insertion.hash ∈ sheet.seen
    · have unchanged := insert_of_seen seen insertion.group insertion.rank insertion.css
      simpa [insertAll, take, unchanged, Insertion.firsts, seen] using ih sorted order
    · obtain ⟨index, after, taken_eq, split, after_sorted, after_seen, -⟩ :=
        insert_of_fresh sorted seen insertion.group insertion.rank insertion.css
      have step := ih after_sorted (order.splits split)
      rw [after_seen] at step
      simpa [insertAll, take, taken_eq, Insertion.firsts, seen, Insertion.rule] using step

theorem sorted_fresh (pending : Option (List Delivery)) : (fresh pending).Sorted :=
  sorted_empty pending

@[simp] theorem rules_fresh (pending : Option (List Delivery)) : (fresh pending).rules = [] := by
  cases pending <;> rfl

@[simp] theorem seen_fresh (pending : Option (List Delivery)) : (fresh pending).seen = [] := rfl

theorem stableOrder_fresh (pending : Option (List Delivery)) :
    SheetRule.StableOrder [] (fresh pending).rules :=
  ⟨by simp, by simp⟩

theorem sorted_insertAll_fresh (pending : Option (List Delivery)) (insertions : List Insertion) :
    ((fresh pending).insertAll insertions).Sorted :=
  (stableOrder_insertAll (sorted_fresh pending) (stableOrder_fresh pending) insertions).1

/-- Insertions into a sheet without rules leave the stable sort of those that came first with their
hash. A further insertion is refused, and changes nothing, exactly when its hash came before;
otherwise its answer is where its rule stands, and the other rules stand as before. -/
theorem insertAll_fresh_rules (pending : Option (List Delivery)) (insertions : List Insertion)
    (next : Insertion) :
    let sheet := (fresh pending).insertAll insertions
    sheet.rules =
        ((Insertion.firsts [] insertions).map Insertion.rule).mergeSort SheetRule.before ∧
      ((sheet.take next).1 = none ↔ next.hash ∈ insertions.map Insertion.hash) ∧
      ((sheet.take next).1 = none → (sheet.take next).2 = sheet) ∧
      ∀ index, (sheet.take next).1 = some index →
        (sheet.take next).2.rules[index]? = some next.rule ∧
          (sheet.take next).2.rules.eraseIdx index = sheet.rules := by
  intro sheet
  have order :=
    (stableOrder_insertAll (sorted_fresh pending) (stableOrder_fresh pending) insertions).2
  rw [seen_fresh, List.nil_append] at order
  refine ⟨order.unique (SheetRule.stableOrder_mergeSort _), ?_⟩
  have came : next.hash ∈ sheet.seen ↔ next.hash ∈ insertions.map Insertion.hash := by
    simpa using mem_seen_insertAll (fresh pending) insertions next.hash
  by_cases seen : next.hash ∈ sheet.seen
  · have unchanged : sheet.take next = (none, sheet) := insert_of_seen seen _ _ _
    simp [unchanged, came.mp seen]
  · obtain ⟨index, after, taken_eq, split, -⟩ :=
      insert_of_fresh (sorted_insertAll_fresh pending insertions) seen next.group next.rank next.css
    have answer : sheet.take next = (some index, after) := taken_eq
    obtain ⟨front, back, rules_eq, after_eq, rfl, -, -⟩ := split
    rw [answer]
    refine ⟨by simpa using fun inserted => seen (came.mpr inserted), by simp, ?_⟩
    intro place same
    obtain rfl := Option.some.inj same
    rw [after_eq, rules_eq]
    exact ⟨by simp [Insertion.rule], by simp [List.eraseIdx_append_of_length_le]⟩

theorem rules_insertAll (pending : Option (List Delivery)) (insertions : List Insertion) :
    SheetRule.StableOrder ((Insertion.firsts [] insertions).map Insertion.rule)
      ((fresh pending).insertAll insertions).rules :=
  (stableOrder_insertAll (sorted_fresh pending) (stableOrder_fresh pending) insertions).2

theorem mem_rules_insertAll {pending : Option (List Delivery)} {insertions : List Insertion}
    {rule : SheetRule} (member : rule ∈ ((fresh pending).insertAll insertions).rules) :
    ∃ insertion ∈ insertions, insertion.rule = rule := by
  obtain ⟨insertion, first, same⟩ :=
    List.mem_map.mp ((rules_insertAll pending insertions).mem member)
  exact ⟨insertion, Insertion.firsts_subset [] insertions first, same⟩

/-- Insertions of different groups may come in any order, as long as they share no hash. -/
theorem rules_of_groups {first second : List Insertion} (pending others : Option (List Delivery))
    (left : ∀ one ∈ first, ∀ other ∈ first, one.hash = other.hash → one.group = other.group)
    (right : ∀ one ∈ second, ∀ other ∈ second, one.hash = other.hash → one.group = other.group)
    (same : ∀ group, (first.filter fun insertion => insertion.group = group) =
      second.filter fun insertion => insertion.group = group) :
    ((fresh pending).insertAll first).rules = ((fresh others).insertAll second).rules := by
  have part (insertions : List Insertion)
      (apart : ∀ one ∈ insertions, ∀ other ∈ insertions, one.hash = other.hash →
        one.group = other.group) (rule : SheetRule) :
      ((Insertion.firsts [] insertions).map Insertion.rule).filter rule.level =
        ((Insertion.firsts [] (insertions.filter fun insertion => insertion.group = rule.group)).map
          Insertion.rule).filter rule.level := by
    have kept :=
      @Insertion.filter_firsts (fun insertion => insertion.group = rule.group) insertions [] []
      (fun one inside other within equal => by simp only [apart one inside other within equal])
      (fun _ _ _ => Iff.rfl)
    rw [← kept, List.filter_map, List.filter_map, List.filter_filter]
    congr 1
    apply List.filter_congr
    intro insertion _
    cases level : rule.level insertion.rule with
    | false => simp [level]
    | true =>
      have here : insertion.group = rule.group := SheetRule.group_of_level level
      simp [level, here]
  apply (rules_insertAll pending first).unique
  apply (rules_insertAll others second).congr
  intro rule
  rw [part first left, part second right, same]

end Sheet

end AtomicCss
