import AtomicCss.Proofs.Keyed
import AtomicCss.Proofs.Style.Keys

/-!
What a style object holds once another one is laid over it.

An entry that meets an object with an object of its own merges where that object stands; every other
entry moves to the end. So a key has what both objects merge into if both hold one, else what the
upper object holds, else what the lower one does; and what moves stands behind what stays, each in
the order that it had.
-/

namespace AtomicCss

/-- A value laid over what stands under its key: objects merge, and any other value takes the
place. -/
def StyleValue.lay : Option StyleValue → StyleValue → StyleValue
  | some (.node current), .node incoming => .node (StyleNode.merge current incoming)
  | _, incoming => incoming

namespace StyleNode

/-- Whether an entry merges into an object of the node instead of moving to the end. -/
def mergesIn (node : StyleNode) (key : String) (value : StyleValue) : Bool :=
  value.isNode && (node.get? key).any StyleValue.isNode

/-- The entries of an override that move to the end. -/
def moved (node : StyleNode) (override : StyleNode) : StyleNode :=
  override.filter fun (key, value) => !node.mergesIn key value

/-- What is left of a node where it stood, once an entry is laid over it. -/
def leave (node : StyleNode) (key : String) : StyleValue → StyleNode
  | .node incoming => match node.get? key with
    | some (.node current) => node.set key (.node (merge current incoming))
    | _ => node.erase key
  | _ => node.erase key

/-- What is left of a node where it stood, with what merges into it. -/
def standing (node : StyleNode) (override : StyleNode) : StyleNode :=
  override.foldl (fun node (key, value) => node.leave key value) node

theorem standing_cons (node : StyleNode) (key : String) (value : StyleValue) (rest : StyleNode) :
    node.standing ((key, value) :: rest) = (node.leave key value).standing rest := rfl

theorem moved_cons (node : StyleNode) (key : String) (value : StyleValue) (rest : StyleNode) :
    node.moved ((key, value) :: rest) =
      (if node.mergesIn key value then [] else [(key, value)]) ++ node.moved rest := by
  cases merges : node.mergesIn key value <;> simp [moved, merges]

section Entry

variable {node : StyleNode} {key : String} {value : StyleValue}

theorem mergesIn_iff :
    node.mergesIn key value = true ↔
      ∃ current incoming, node.get? key = some (.node current) ∧ value = .node incoming := by
  cases value with
  | node incoming =>
    cases held : node.get? key with
    | none => simp [mergesIn, held]
    | some current => cases current <;> simp [mergesIn, held, StyleValue.isNode]
  | _ => simp [mergesIn, StyleValue.isNode]

theorem mergeEntry_merging {current : StyleNode} (held : node.get? key = some (.node current))
    (incoming : StyleNode) :
    node.mergeEntry key (.node incoming) = node.set key (.node (merge current incoming)) := by
  rw [mergeEntry, held]

theorem leave_merging {current : StyleNode} (held : node.get? key = some (.node current))
    (incoming : StyleNode) :
    node.leave key (.node incoming) = node.set key (.node (merge current incoming)) := by
  rw [leave, held]

theorem mergeEntry_moving (moves : node.mergesIn key value = false) :
    node.mergeEntry key value = node.moveLast key value := by
  cases value with
  | node incoming =>
    rw [mergeEntry]
    split
    · next held => simp [mergesIn, held, StyleValue.isNode] at moves
    · rfl
  | _ => simp [mergeEntry]

theorem leave_moving (moves : node.mergesIn key value = false) :
    node.leave key value = node.erase key := by
  unfold leave
  split
  · split
    · next held => simp [mergesIn, held, StyleValue.isNode] at moves
    · rfl
  · rfl

theorem lay_moving (moves : node.mergesIn key value = false) :
    StyleValue.lay (node.get? key) value = value := by
  unfold StyleValue.lay
  split
  · next held => simp [mergesIn, held, StyleValue.isNode] at moves
  · rfl

/-- Merging an entry lays it over what stands under its key, there or at the end. -/
theorem mergeEntry_eq (node : StyleNode) (key : String) (value : StyleValue) :
    node.mergeEntry key value = node.set key (.lay (node.get? key) value) ∨
      node.mergeEntry key value = node.moveLast key (.lay (node.get? key) value) := by
  by_cases merges : node.mergesIn key value = true
  · obtain ⟨current, incoming, held, rfl⟩ := mergesIn_iff.mp merges
    left
    rw [mergeEntry_merging held, held, StyleValue.lay]
  · have moves := eq_false_of_ne_true merges
    right
    rw [mergeEntry_moving moves, lay_moving moves]

theorem mem_mergeEntry_self (node : StyleNode) (key : String) (value : StyleValue) :
    (key, StyleValue.lay (node.get? key) value) ∈ node.mergeEntry key value := by
  rcases mergeEntry_eq node key value with set | moved
  · rw [set]
    exact Keyed.mem_set_self _ _ _
  · rw [moved]
    exact List.mem_append_right _ List.mem_cons_self

/-- An entry stays where another one is merged, or that one is laid over it. -/
theorem mem_mergeEntry_or {node : StyleNode} {key : String} {held : StyleValue}
    (member : (key, held) ∈ node) (other : String) (value : StyleValue) :
    (key, held) ∈ node.mergeEntry other value ∨
      (other = key ∧ (key, .lay (some held) value) ∈ node.mergeEntry other value) := by
  have own := mem_mergeEntry_self node other value
  rcases mergeEntry_eq node other value with same | same <;> rw [same] at own ⊢
  · rcases Keyed.mem_set_or member other _ with kept | ⟨rfl, found⟩
    · exact .inl kept
    · exact .inr ⟨rfl, by rwa [found] at own ⊢⟩
  · rcases Keyed.mem_erase_or member other with kept | ⟨rfl, found⟩
    · exact .inl (List.mem_append_left _ kept)
    · exact .inr ⟨rfl, by rwa [found] at own ⊢⟩

end Entry

theorem mergeEntry_append (node : StyleNode) {tail : StyleNode} {key : String}
    (lacks : tail.Lacks key) (value : StyleValue) :
    mergeEntry (node ++ tail) key value =
      node.leave key value ++ (tail ++ if node.mergesIn key value then [] else [(key, value)]) := by
  have same : Keyed.get? (node ++ tail) key = Keyed.get? node key := Keyed.get?_append lacks
  by_cases merges : node.mergesIn key value = true
  · obtain ⟨current, incoming, held, rfl⟩ := mergesIn_iff.mp merges
    rw [mergeEntry_merging (same.trans held), leave_merging held, if_pos merges, List.append_nil,
      Keyed.set_append_of_get? tail held]
  · have moves := eq_false_of_ne_true merges
    have moves_whole : mergesIn (node ++ tail) key value = false := by
      rw [mergesIn, same, ← mergesIn, moves]
    rw [mergeEntry_moving moves_whole, leave_moving moves, if_neg merges, moveLast,
      Keyed.erase_append node lacks, List.append_assoc]

theorem get?_leave_of_ne (node : StyleNode) {key other : String} (different : other ≠ key)
    (value : StyleValue) : (node.leave key value).get? other = node.get? other := by
  unfold leave
  split
  · split
    · exact Keyed.get?_set_of_ne node different _
    · exact Keyed.get?_erase_of_ne node different
  · exact Keyed.get?_erase_of_ne node different

/-- Whether later entries merge in does not depend on an entry of another key. -/
theorem moved_leave (node : StyleNode) {key : String} (value : StyleValue) {rest : StyleNode}
    (lacks : rest.Lacks key) : (node.leave key value).moved rest = node.moved rest := by
  apply List.filter_congr
  intro entry member
  simp only [mergesIn, get?_leave_of_ne node (lacks entry member) value]

/-- Laying an override over a node splits into what stays and what moves behind it. -/
theorem merge_append {override : StyleNode} (distinct : override.names.Nodup)
    (node tail : StyleNode) (lacks : ∀ entry ∈ override, tail.Lacks entry.1) :
    merge (node ++ tail) override = node.standing override ++ (tail ++ node.moved override) := by
  induction override generalizing node tail with
  | nil => simp [merge, standing, moved]
  | cons entry rest ih =>
    obtain ⟨key, value⟩ := entry
    obtain ⟨fresh, distinct⟩ := List.nodup_cons.mp distinct
    obtain ⟨lacks_key, lacks⟩ := List.forall_mem_cons.mp lacks
    have other : ∀ entry ∈ rest, entry.1 ≠ key := by
      intro entry member same
      exact fresh (List.mem_map.mpr ⟨entry, member, same⟩)
    rw [merge, mergeEntry_append node lacks_key, ih distinct]
    · rw [moved_leave node value other, standing_cons, moved_cons, List.append_assoc]
    · intro entry member found inside
      rcases List.mem_append.mp inside with earlier | moved
      · exact lacks entry member found earlier
      · split at moved
        · cases moved
        · rw [List.mem_singleton.mp moved]
          exact (other entry member).symm

theorem merge_eq_append {override : StyleNode} (distinct : override.names.Nodup)
    (node : StyleNode) :
    merge node override = node.standing override ++ node.moved override := by
  simpa using merge_append distinct node [] (by simp [Keyed.Lacks])

theorem names_moveLast (node : StyleNode) (key : String) (value : StyleValue) :
    (node.moveLast key value).names = node.names.erase key ++ [key] := by
  rw [moveLast, Keyed.names, List.map_append]
  exact congrArg (· ++ [key]) (Keyed.names_erase node key)

theorem nodup_mergeEntry {node : StyleNode} (distinct : node.names.Nodup) (key : String)
    (value : StyleValue) : (node.mergeEntry key value).names.Nodup := by
  cases merges : node.mergesIn key value with
  | true =>
    obtain ⟨current, incoming, held, rfl⟩ := mergesIn_iff.mp merges
    rw [mergeEntry_merging held, Keyed.names_set_of_get? held]
    exact distinct
  | false =>
    rw [mergeEntry_moving merges, names_moveLast]
    apply List.Nodup.append (distinct.erase key) (List.nodup_singleton key)
    simpa using distinct.not_mem_erase

theorem nodup_merge {node : StyleNode} (distinct : node.names.Nodup) (override : StyleNode) :
    (merge node override).names.Nodup := by
  induction override generalizing node with
  | nil => exact distinct
  | cons entry rest ih =>
    rw [merge]
    exact ih (nodup_mergeEntry distinct entry.1 entry.2)

/-- Laid over nothing, every entry moves. -/
theorem merge_nil_left {override : StyleNode} (distinct : override.names.Nodup) :
    merge [] override = override := by
  have stays (override : StyleNode) : standing [] override = [] := by
    induction override with
    | nil => rfl
    | cons entry rest ih =>
      rw [standing_cons, leave_moving (by simp [mergesIn, Keyed.get?])]
      exact ih
  have moves : moved [] override = override := by
    apply List.filter_eq_self.mpr
    intro entry member
    simp [mergesIn, Keyed.get?]
  rw [merge_eq_append distinct, stays, moves, List.nil_append]

theorem get?_mergeEntry {node : StyleNode} (distinct : node.names.Nodup) (key : String)
    (value : StyleValue) (other : String) :
    (node.mergeEntry key value).get? other =
      if other = key then some (.lay (node.get? key) value) else node.get? other := by
  have again := nodup_mergeEntry distinct key value
  split
  · next same =>
    rw [same, Keyed.get?_eq_some again]
    exact mem_mergeEntry_self node key value
  · next different =>
    rcases mergeEntry_eq node key value with set | moved
    · rw [set, Keyed.get?_set_of_ne node different]
    · have absent : Keyed.Lacks [(key, StyleValue.lay (node.get? key) value)] other := by
        simpa [Keyed.Lacks] using Ne.symm different
      rw [moved, moveLast, Keyed.get?_append absent, Keyed.get?_erase_of_ne node different]

section Merge

variable {base other : StyleNode}

/-- A key has what the upper object lays over what the lower one holds, if it holds anything. -/
theorem get?_merge (base_distinct : base.names.Nodup) (distinct : other.names.Nodup)
    (key : String) :
    (merge base other).get? key =
      match other.get? key with
      | some value => some (.lay (base.get? key) value)
      | none => base.get? key := by
  induction other generalizing base with
  | nil => rfl
  | cons entry rest ih =>
    obtain ⟨own, value⟩ := entry
    obtain ⟨fresh, distinct⟩ := List.nodup_cons.mp distinct
    rw [merge, ih (nodup_mergeEntry base_distinct own value) distinct,
      get?_mergeEntry base_distinct own value, Keyed.get?]
    by_cases here : own = key
    · subst here
      rw [Keyed.get?_eq_none_iff.mpr fresh]
      simp
    · simp [here, Ne.symm here]

/-- Whether both objects hold an object under the key. -/
def mergesAt (base other : StyleNode) (key : String) : Bool :=
  (base.get? key).any StyleValue.isNode && (other.get? key).any StyleValue.isNode

theorem mergesAt_cons_self (base : StyleNode) (key : String) (value : StyleValue)
    (rest : StyleNode) :
    base.mergesAt ((key, value) :: rest) key = base.mergesIn key value := by
  simp [mergesAt, mergesIn, Keyed.get?, Bool.and_comm]

theorem mergesAt_cons_of_ne (base : StyleNode) {key own : String} (different : key ≠ own)
    (value : StyleValue) (rest : StyleNode) :
    base.mergesAt ((own, value) :: rest) key = (base.leave own value).mergesAt rest key := by
  simp [mergesAt, Keyed.get?, different.symm, get?_leave_of_ne base different value]

theorem names_leave (node : StyleNode) (key : String) (value : StyleValue) :
    (node.leave key value).names =
      if node.mergesIn key value then node.names else node.names.erase key := by
  cases merges : node.mergesIn key value with
  | true =>
    obtain ⟨current, incoming, held, rfl⟩ := mergesIn_iff.mp merges
    rw [leave_merging held, Keyed.names_set_of_get? held, if_pos rfl]
  | false => rw [leave_moving merges, Keyed.names_erase, if_neg Bool.false_ne_true]

/-- The keys that stay are those that the upper object lacks, and those of two objects. -/
theorem names_standing (base_distinct : base.names.Nodup) (distinct : other.names.Nodup) :
    (base.standing other).names =
      base.names.filter fun key => !other.contains key || base.mergesAt other key := by
  induction other generalizing base with
  | nil => simp [standing, Keyed.contains, Keyed.get?]
  | cons entry rest ih =>
    obtain ⟨own, value⟩ := entry
    obtain ⟨fresh, distinct⟩ := List.nodup_cons.mp distinct
    have absent : Keyed.get? rest own = none := Keyed.get?_eq_none_iff.mpr fresh
    have other_keys {key : String} (different : key ≠ own) :
        (!Keyed.contains rest key || (base.leave own value).mergesAt rest key) =
          (!Keyed.contains ((own, value) :: rest) key ||
            base.mergesAt ((own, value) :: rest) key) := by
      rw [mergesAt_cons_of_ne base different]
      simp [Keyed.contains, Keyed.get?, different.symm]
    have leave_distinct : (base.leave own value).names.Nodup := by
      rw [names_leave]
      split
      · exact base_distinct
      · exact base_distinct.erase own
    rw [standing_cons, ih leave_distinct distinct, names_leave]
    cases merges : base.mergesIn own value with
    | true =>
      rw [if_pos rfl]
      apply List.filter_congr
      intro key member
      by_cases here : key = own
      · subst here
        simp [mergesAt_cons_self, merges, Keyed.contains, absent]
      · exact other_keys here
    | false =>
      rw [if_neg Bool.false_ne_true, base_distinct.erase_eq_filter, List.filter_filter]
      apply List.filter_congr
      intro key member
      by_cases here : key = own
      · subst here
        simp [mergesAt_cons_self, merges, Keyed.contains, Keyed.get?]
      · simp [other_keys here, here]

theorem names_moved (distinct : other.names.Nodup) :
    (base.moved other).names = other.names.filter fun key => !base.mergesAt other key := by
  rw [Keyed.names, Keyed.names, moved, List.filter_map]
  congr 1
  apply List.filter_congr
  rintro ⟨key, value⟩ member
  simp [mergesAt, mergesIn, (Keyed.get?_eq_some distinct).mpr member, Bool.and_comm]

theorem names_merge (base_distinct : base.names.Nodup) (distinct : other.names.Nodup) :
    (merge base other).names =
      (base.names.filter fun key => !other.contains key || base.mergesAt other key) ++
        other.names.filter fun key => !base.mergesAt other key := by
  rw [merge_eq_append distinct, ← names_standing base_distinct distinct, ← names_moved distinct]
  exact List.map_append

end Merge

mutual

theorem keysOnce_merge (base : StyleNode) (other : List (String × StyleValue))
    (base_once : base.keysOnce = true) (once : StyleNode.keysOnce other = true) :
    (merge base other).keysOnce = true := by
  match other with
  | [] => exact base_once
  | (key, value) :: rest =>
    obtain ⟨distinct, each⟩ := StyleValue.keysOnce_node.mp once
    obtain ⟨own, others⟩ := List.forall_mem_cons.mp each
    have rest_once : StyleNode.keysOnce rest = true :=
      StyleValue.keysOnce_node.mpr ⟨(List.nodup_cons.mp distinct).2, others⟩
    rw [merge]
    exact keysOnce_merge _ rest (keysOnce_mergeEntry base key value base_once own) rest_once

theorem keysOnce_mergeEntry (base : StyleNode) (key : String) (value : StyleValue)
    (base_once : base.keysOnce = true) (once : value.keysOnce = true) :
    (mergeEntry base key value).keysOnce = true := by
  obtain ⟨distinct, each⟩ := StyleValue.keysOnce_node.mp base_once
  have laid : (StyleValue.lay (base.get? key) value).keysOnce = true := by
    match value with
    | .node incoming =>
      cases merges : base.mergesIn key (.node incoming) with
      | true =>
        obtain ⟨current, _, held, -⟩ := mergesIn_iff.mp merges
        rw [held]
        exact keysOnce_merge current incoming (each _ (Keyed.mem_of_get? held)) once
      | false => rwa [lay_moving merges]
    | .text _ => rwa [lay_moving rfl]
    | .number _ => rwa [lay_moving rfl]
    | .list _ => rwa [lay_moving rfl]
  refine StyleValue.keysOnce_node.mpr ⟨nodup_mergeEntry distinct key value, ?_⟩
  intro entry member
  rcases mergeEntry_eq base key value with set | moved
  · rw [set] at member
    rcases Keyed.mem_set member with old | rfl
    · exact each entry old
    · exact laid
  · rw [moved] at member
    rcases List.mem_append.mp member with kept | last
    · exact each entry (Keyed.mem_of_mem_erase kept)
    · rw [List.mem_singleton.mp last]
      exact laid

end

/-- Merging is a keyed deep override that keeps each key once: of the lower object stay, in their
order, the keys that the upper one lacks and those under which both hold objects, and all other keys
of the upper one follow in theirs. -/
theorem merge_overrides {base other : StyleNode} (base_once : base.keysOnce = true)
    (once : other.keysOnce = true) :
    (∀ key, (merge base other).get? key =
        match base.get? key, other.get? key with
        | some (.node current), some (.node incoming) => some (.node (merge current incoming))
        | _, some value => some value
        | held, none => held) ∧
      (merge base other).names =
        (base.names.filter fun key => !other.contains key || base.mergesAt other key) ++
          other.names.filter (fun key => !base.mergesAt other key) ∧
      (merge base other).keysOnce = true := by
  have base_distinct := (StyleValue.keysOnce_node.mp base_once).1
  have distinct := (StyleValue.keysOnce_node.mp once).1
  refine ⟨?_, names_merge base_distinct distinct, keysOnce_merge base other base_once once⟩
  intro key
  rw [get?_merge base_distinct distinct]
  cases other.get? key with
  | none =>
    cases base.get? key with
    | none => rfl
    | some current => cases current <;> rfl
  | some value =>
    cases base.get? key with
    | none => rfl
    | some current => cases current <;> cases value <;> rfl

/-- A nested object merges where it stands, and an overridden text moves behind the keys that
stay. -/
theorem merge_overrides_nested :
    let base : StyleNode := [("color", .text "red"),
      ("&:hover", .node [("color", .text "red"), ("top", .text "0")]), ("margin", .text "0")]
    let other : StyleNode := [("@media print", .node [("top", .text "0")]),
      ("&:hover", .node [("color", .text "blue"), ("left", .text "0")]), ("color", .text "green")]
    base.keysOnce = true ∧ other.keysOnce = true ∧
      (merge base other).names = ["&:hover", "margin", "@media print", "color"] ∧
      (merge base other).get? "&:hover" =
        some (.node (merge [("color", .text "red"), ("top", .text "0")]
          [("color", .text "blue"), ("left", .text "0")])) ∧
      (merge base other).get? "color" = some (.text "green") ∧
      (merge base other).get? "margin" = some (.text "0") ∧ (merge base other).keysOnce = true := by
  intro base other
  have base_once : base.keysOnce = true := by decide
  have once : other.keysOnce = true := by decide
  obtain ⟨values, names, merged_once⟩ := merge_overrides base_once once
  exact ⟨base_once, once, names.trans (by decide), values "&:hover", values "color",
    values "margin", merged_once⟩

end StyleNode

end AtomicCss
