import AtomicCss.Proofs.Pairs
import Mathlib.Data.List.Induction

/-!
Items gathered by a key.

Items are taken up one after another: each goes to the part of its key, at the end, or starts a part
behind the others. An item without a key stands alone. So the parts hold each item once and in
order, stand in the order of their first items, and two items share one exactly if they have the
same key.
-/

namespace AtomicCss.Grouping

variable {α κ : Type} [DecidableEq κ] (key? : α → Option κ)

/-- Whether a part is that of the item's key. -/
def Takes (part : List α) (item : α) : Prop :=
  (key? item).isSome = true ∧ part.head?.bind key? = key? item

instance (part : List α) (item : α) : Decidable (Takes key? part item) :=
  inferInstanceAs (Decidable (_ ∧ _))

def join (item : α) : List (List α) → List (List α)
  | [] => [[item]]
  | part :: rest =>
    if Takes key? part item then (part ++ [item]) :: rest else part :: join item rest

def gather (items : List α) : List (List α) :=
  items.foldl (fun parts item => join key? item parts) []

theorem gather_concat (items : List α) (item : α) :
    gather key? (items ++ [item]) = join key? item (gather key? items) := List.foldl_append

/-- An item goes to the first part that takes it, or starts one. -/
theorem join_cases (item : α) (parts : List (List α)) :
    (∃ front part back, parts = front ++ part :: back ∧ Takes key? part item ∧
        join key? item parts = front ++ (part ++ [item]) :: back) ∨
      ((∀ part ∈ parts, ¬ Takes key? part item) ∧ join key? item parts = parts ++ [[item]]) := by
  induction parts with
  | nil => exact .inr ⟨by simp, rfl⟩
  | cons part rest ih =>
    rw [join]
    by_cases takes : Takes key? part item
    · rw [if_pos takes]
      exact .inl ⟨[], part, rest, rfl, takes, rfl⟩
    · rw [if_neg takes]
      rcases ih with ⟨front, own, back, rfl, taking, joined⟩ | ⟨others, joined⟩
      · exact .inl ⟨part :: front, own, back, rfl, taking, by rw [joined]; rfl⟩
      · refine .inr ⟨?_, by rw [joined]; rfl⟩
        exact List.forall_mem_cons.mpr ⟨takes, others⟩

theorem join_map {β : Type} (f : β → α) (item : β) (parts : List (List β)) :
    (join (key? ∘ f) item parts).map (·.map f) = join key? (f item) (parts.map (·.map f)) := by
  induction parts with
  | nil => rfl
  | cons part rest ih =>
    have same : Takes (key? ∘ f) part item ↔ Takes key? (part.map f) (f item) := by
      cases part <;> simp [Takes]
    rw [List.map_cons, join, join]
    by_cases takes : Takes (key? ∘ f) part item
    · simp [takes, same.mp takes]
    · simp [takes, mt same.mpr takes, ih]

/-- Gathering items by what they stand for gathers that. -/
theorem gather_map {β : Type} (f : β → α) (items : List β) :
    (gather (key? ∘ f) items).map (·.map f) = gather key? (items.map f) := by
  induction items using List.reverseRecOn with
  | nil => rfl
  | append_singleton items item ih =>
    rw [gather_concat, join_map, ih, List.map_append, List.map_singleton, gather_concat]

/-- What the parts of items are like. -/
structure Parts (items : List α) (parts : List (List α)) : Prop where
  perm : parts.flatten.Perm items
  filled : ∀ part ∈ parts, part ≠ []
  ordered : ∀ part ∈ parts, part.Sublist items
  heads : (parts.filterMap List.head?).Sublist items
  within : ∀ part ∈ parts, ∀ first ∈ part, ∀ second ∈ part,
    first = second ∨ (key? first).isSome = true ∧ key? first = key? second
  apart : parts.Pairwise fun part other =>
    ∀ first ∈ part, ∀ second ∈ other, (key? first).isSome = true → key? first ≠ key? second

variable {key?} {items : List α} {item : α} {front back parts : List (List α)} {part : List α}

theorem mem_taken {other : List α} (inside : other ∈ front ++ (part ++ [item]) :: back) :
    other ∈ front ++ part :: back ∨ other = part ++ [item] := by
  rcases List.mem_append.mp inside with before | around
  · exact .inl (List.mem_append_left _ before)
  · rcases List.mem_cons.mp around with rfl | after
    · exact .inr rfl
    · exact .inl (List.mem_append_right _ (List.mem_cons_of_mem _ after))

omit [DecidableEq κ] in
/-- The items of a part have the key of an item that it takes. -/
theorem Parts.key?_eq (grouped : Parts key? items parts) (member : part ∈ parts)
    (takes : Takes key? part item) : ∀ other ∈ part, key? other = key? item := by
  obtain ⟨head, rest, rfl⟩ := List.exists_cons_of_ne_nil (grouped.filled part member)
  have same : key? head = key? item := takes.2
  intro other inside
  rcases grouped.within _ member other inside head List.mem_cons_self with rfl | ⟨-, equal⟩
  · exact same
  · exact equal.trans same

omit [DecidableEq κ] in
/-- A part stays apart from others when it takes an item of its key. -/
theorem apart_taken (grouped : Parts key? items (front ++ part :: back))
    (takes : Takes key? part item) :
    (front ++ (part ++ [item]) :: back).Pairwise fun part other =>
      ∀ first ∈ part, ∀ second ∈ other, (key? first).isSome = true → key? first ≠ key? second := by
  have member : part ∈ front ++ part :: back := List.mem_append_right _ List.mem_cons_self
  have level := grouped.key?_eq member takes
  obtain ⟨head, head_member⟩ := List.exists_mem_of_ne_nil part (grouped.filled part member)
  have same : key? item = key? head := (level head head_member).symm
  obtain ⟨before, around, across⟩ := List.pairwise_append.mp grouped.apart
  obtain ⟨behind, after⟩ := List.pairwise_cons.mp around
  refine List.pairwise_append.mpr ⟨before, List.pairwise_cons.mpr ⟨?_, after⟩, ?_⟩
  · intro other inside
    rw [List.forall_mem_append, List.forall_mem_singleton, same]
    exact ⟨behind other inside, behind other inside head head_member⟩
  · intro other inside
    obtain ⟨from_part, from_back⟩ := List.forall_mem_cons.mp (across other inside)
    refine List.forall_mem_cons.mpr ⟨?_, from_back⟩
    intro first left
    rw [List.forall_mem_append, List.forall_mem_singleton, same]
    exact ⟨from_part first left, from_part first left head head_member⟩

omit [DecidableEq κ] in
/-- The parts once one of them has taken an item. -/
theorem Parts.take (grouped : Parts key? items (front ++ part :: back))
    (takes : Takes key? part item) :
    Parts key? (items ++ [item]) (front ++ (part ++ [item]) :: back) := by
  have member : part ∈ front ++ part :: back := List.mem_append_right _ List.mem_cons_self
  have level : ∀ other ∈ part ++ [item], key? other = key? item := by
    rw [List.forall_mem_append, List.forall_mem_singleton]
    exact ⟨grouped.key?_eq member takes, rfl⟩
  refine ⟨?_, ?_, ?_, ?_, ?_, apart_taken grouped takes⟩
  · have taken := grouped.perm.append_right [item]
    simp only [List.flatten_append, List.flatten_cons, List.append_assoc] at taken ⊢
    have moved : ([item] ++ back.flatten).Perm (back.flatten ++ [item]) := List.perm_append_comm
    exact ((moved.append_left part).append_left front.flatten).trans taken
  · intro other inside
    rcases mem_taken inside with earlier | rfl
    · exact grouped.filled other earlier
    · simp
  · intro other inside
    rcases mem_taken inside with earlier | rfl
    · exact (grouped.ordered other earlier).trans (List.sublist_append_left items [item])
    · exact (grouped.ordered part member).append (List.Sublist.refl [item])
  · obtain ⟨head, rest, rfl⟩ := List.exists_cons_of_ne_nil (grouped.filled part member)
    have heads := grouped.heads.trans (List.sublist_append_left items [item])
    simpa using heads
  · intro other inside first left second right
    rcases mem_taken inside with earlier | rfl
    · exact grouped.within other earlier first left second right
    · right
      rw [level first left, level second right]
      exact ⟨takes.1, rfl⟩

omit [DecidableEq κ] in
/-- The parts once an item has started one. -/
theorem Parts.start (grouped : Parts key? items parts)
    (free : ∀ part ∈ parts, ¬ Takes key? part item) :
    Parts key? (items ++ [item]) (parts ++ [[item]]) := by
  refine ⟨?_, ?_, ?_, ?_, ?_, ?_⟩
  · rw [List.flatten_concat]
    exact grouped.perm.append_right [item]
  · rw [List.forall_mem_append, List.forall_mem_singleton]
    exact ⟨grouped.filled, List.cons_ne_nil item []⟩
  · rw [List.forall_mem_append, List.forall_mem_singleton]
    constructor
    · intro other earlier
      exact (grouped.ordered other earlier).trans (List.sublist_append_left items [item])
    · exact List.sublist_append_right items [item]
  · rw [List.filterMap_append]
    exact grouped.heads.append (List.Sublist.refl [item])
  · rw [List.forall_mem_append, List.forall_mem_singleton]
    refine ⟨grouped.within, ?_⟩
    intro first left second right
    left
    rw [List.mem_singleton.mp left, List.mem_singleton.mp right]
  · refine List.pairwise_append.mpr ⟨grouped.apart, List.pairwise_singleton _ _, ?_⟩
    intro part member
    rw [List.forall_mem_singleton]
    intro first left
    rw [List.forall_mem_singleton]
    intro known same
    obtain ⟨head, rest, rfl⟩ := List.exists_cons_of_ne_nil (grouped.filled part member)
    have equal : key? head = key? item := by
      rcases grouped.within _ member head List.mem_cons_self first left with rfl | ⟨-, own⟩
      · exact same
      · exact own.trans same
    exact free _ member ⟨same ▸ known, equal⟩

theorem parts_gather (key? : α → Option κ) (items : List α) :
    Parts key? items (gather key? items) := by
  induction items using List.reverseRecOn with
  | nil =>
    exact ⟨.refl _, by simp [gather], by simp [gather], List.Sublist.refl _, by simp [gather], .nil⟩
  | append_singleton items item ih =>
    rw [gather_concat]
    rcases join_cases key? item (gather key? items) with
      ⟨front, part, back, same, takes, joined⟩ | ⟨free, joined⟩
    · rw [joined]
      exact (same ▸ ih).take takes
    · rw [joined]
      exact ih.start free

/-- An item without a key is alone in its part. -/
theorem eq_singleton_of_gather (member : part ∈ gather key? items) (inside : item ∈ part)
    (free : key? item = none) : part = [item] := by
  induction items using List.reverseRecOn generalizing part with
  | nil => cases member
  | append_singleton items last ih =>
    rw [gather_concat] at member
    rcases join_cases key? last (gather key? items) with
      ⟨front, own, back, same, takes, joined⟩ | ⟨-, joined⟩
    · rw [joined] at member
      rcases mem_taken member with earlier | rfl
      · exact ih (same ▸ earlier) inside
      · have within : own ∈ gather key? items := same ▸ List.mem_append_right _ List.mem_cons_self
        have keyed : key? item = key? last := by
          rcases List.mem_append.mp inside with old | new
          · exact (parts_gather key? items).key?_eq within takes item old
          · rw [List.mem_singleton.mp new]
        have known := takes.1
        rw [← keyed, free] at known
        cases known
    · rw [joined] at member
      rcases List.mem_append.mp member with earlier | new
      · exact ih earlier inside
      · rw [List.mem_singleton.mp new] at inside ⊢
        rw [List.mem_singleton.mp inside]

/-- Two items share a part exactly if they are the same or have the same key. -/
theorem same_part_iff (key? : α → Option κ) {items : List α} {first second : α}
    (left : first ∈ items) (right : second ∈ items) :
    (∃ part ∈ gather key? items, first ∈ part ∧ second ∈ part) ↔
      first = second ∨ (key? first).isSome = true ∧ key? first = key? second := by
  have grouped := parts_gather key? items
  constructor
  · rintro ⟨part, member, here, there⟩
    exact grouped.within part member first here second there
  · intro alike
    obtain ⟨part, member, here⟩ := List.mem_flatten.mp (grouped.perm.mem_iff.mpr left)
    obtain ⟨other, inside, there⟩ := List.mem_flatten.mp (grouped.perm.mem_iff.mpr right)
    rcases alike with rfl | ⟨known, same⟩
    · exact ⟨part, member, here, here⟩
    · by_cases equal : part = other
      · exact ⟨part, member, here, equal ▸ there⟩
      · rcases pair_sublist_or member inside equal with placed | swapped
        · have apart := List.pairwise_iff_forall_sublist.mp grouped.apart placed
          exact absurd same (apart first here second there known)
        · have apart := List.pairwise_iff_forall_sublist.mp grouped.apart swapped
          exact absurd same.symm (apart second there first here (same ▸ known))

/-- The positions of the items of each part. -/
def positions (key? : α → Option κ) (items : List α) : List (List Nat) :=
  (gather (key? ∘ Prod.fst) items.zipIdx).map (·.map Prod.snd)

section Positions

variable (key? : α → Option κ) (items : List α)

theorem map_snd_zipIdx : items.zipIdx.map Prod.snd = List.range items.length := by
  rw [List.zipIdx_map_snd, List.range_eq_range']

theorem positions_perm : (positions key? items).flatten.Perm (List.range items.length) := by
  rw [positions, ← List.map_flatten, ← map_snd_zipIdx]
  exact (parts_gather _ items.zipIdx).perm.map Prod.snd

theorem positions_ordered : ∀ part ∈ positions key? items, part ≠ [] ∧ part.Pairwise (· < ·) := by
  intro part member
  obtain ⟨own, inside, rfl⟩ := List.mem_map.mp member
  have grouped := parts_gather (key? ∘ Prod.fst) items.zipIdx
  refine ⟨by simpa using grouped.filled own inside, ?_⟩
  apply List.Pairwise.sublist ((grouped.ordered own inside).map Prod.snd)
  rw [map_snd_zipIdx]
  exact List.pairwise_lt_range

theorem positions_heads : ((positions key? items).filterMap List.head?).Pairwise (· < ·) := by
  have heads := (parts_gather (key? ∘ Prod.fst) items.zipIdx).heads.map Prod.snd
  have same : (positions key? items).filterMap List.head? =
      ((gather (key? ∘ Prod.fst) items.zipIdx).filterMap List.head?).map Prod.snd := by
    simp [positions, List.filterMap_map, List.map_filterMap, Function.comp_def]
  rw [same]
  apply List.Pairwise.sublist heads
  rw [map_snd_zipIdx]
  exact List.pairwise_lt_range

theorem positions_items :
    (positions key? items).map (fun part => part.filterMap (items[·]?)) = gather key? items := by
  have whole :
      gather key? items = (gather (key? ∘ Prod.fst) items.zipIdx).map (·.map Prod.fst) := by
    rw [gather_map, List.zipIdx_map_fst]
  rw [whole, positions, List.map_map]
  apply List.map_congr_left
  intro part member
  have inside := ((parts_gather _ items.zipIdx).ordered part member).subset
  have found : ∀ own ∈ part, items[own.2]? = some own.1 :=
    fun own here => List.mem_zipIdx_iff_getElem?.mp (inside here)
  rw [Function.comp_apply, List.filterMap_map, ← List.filterMap_eq_map]
  exact List.filterMap_congr found

theorem same_position_iff {items : List α} {first second : α} {i j : Nat}
    (left : items[i]? = some first) (right : items[j]? = some second) :
    (∃ part ∈ positions key? items, i ∈ part ∧ j ∈ part) ↔
      i = j ∨ (key? first).isSome = true ∧ key? first = key? second := by
  have grouped := parts_gather (key? ∘ Prod.fst) items.zipIdx
  have first_member : (first, i) ∈ items.zipIdx := List.mem_zipIdx_iff_getElem?.mpr left
  have second_member : (second, j) ∈ items.zipIdx := List.mem_zipIdx_iff_getElem?.mpr right
  have shared := same_part_iff (key? ∘ Prod.fst) first_member second_member
  have at_position {part : List (α × Nat)} (member : part ∈ gather (key? ∘ Prod.fst) items.zipIdx)
      {item : α} {index : Nat} (found : items[index]? = some item) :
      index ∈ part.map Prod.snd ↔ (item, index) ∈ part := by
    constructor
    · intro inside
      obtain ⟨⟨other, _⟩, here, rfl⟩ := List.mem_map.mp inside
      have same := List.mem_zipIdx_iff_getElem?.mp ((grouped.ordered part member).subset here)
      rw [found] at same
      obtain rfl := Option.some.inj same
      exact here
    · exact fun here => List.mem_map.mpr ⟨_, here, rfl⟩
  have equal : (first, i) = (second, j) ↔ i = j := by
    constructor
    · exact fun same => (Prod.mk.inj same).2
    · rintro rfl
      rw [left] at right
      rw [Option.some.inj right]
  rw [equal] at shared
  refine Iff.trans ?_ shared
  rw [positions]
  constructor
  · rintro ⟨_, member, here, there⟩
    obtain ⟨part, inside, rfl⟩ := List.mem_map.mp member
    exact ⟨part, inside, (at_position inside left).mp here, (at_position inside right).mp there⟩
  · rintro ⟨part, inside, here, there⟩
    exact ⟨_, List.mem_map_of_mem inside, (at_position inside left).mpr here,
      (at_position inside right).mpr there⟩

end Positions

end AtomicCss.Grouping
