import AtomicCss.Proofs.Keyed
import AtomicCss.Variant.Resolve
import Mathlib.Data.List.Perm.Basic
import Mathlib.Data.List.Nodup

/-!
What the key of a selection determines.

A key forgets the order of the groups and, inside a responsive value, the order of the branches.
Groups are looked up by name and branches are ranked by their breakpoints, so selections with one
key are refused alike; and they resolve alike as long as the branches of each breakpoint come in the
same order, which is so if no responsive value names a breakpoint twice.
-/

namespace AtomicCss

namespace VariantSelection

theorem get?_key (selection : VariantSelection) (group : String) :
    Keyed.get? selection.key group = (Keyed.get? selection group).map VariantValue.sorted := by
  rw [key, Keyed.get?_mergeSort, ← Keyed.get?_map]

/-- No responsive value names a breakpoint twice. -/
def NamesOnce (selection : VariantSelection) : Prop :=
  ∀ group branches, (group, .responsive branches) ∈ selection → (branches.map (·.1)).Nodup

end VariantSelection

/-- Two values that differ at most in the order of their branches. -/
inductive VariantValue.Alike : VariantValue → VariantValue → Prop where
  | single (value) : Alike (.single value) (.single value)
  | responsive {first second} : first.Perm second → (first.map (·.1)).Nodup →
      Alike (.responsive first) (.responsive second)

/-- Two values that ask for the same, in whatever order. -/
inductive VariantValue.Permuted : VariantValue → VariantValue → Prop where
  | single (value) : Permuted (.single value) (.single value)
  | responsive {first second} : first.Perm second →
      Permuted (.responsive first) (.responsive second)

/-- Two values that ask at each breakpoint for the same in the same order. -/
inductive VariantValue.InTurn : VariantValue → VariantValue → Prop where
  | single (value) : InTurn (.single value) (.single value)
  | responsive {first second : List (String × String)} :
      (∀ key, (first.filter fun entry => entry.1 = key) = second.filter fun entry =>
        entry.1 = key) →
      InTurn (.responsive first) (.responsive second)

namespace VariantValue

theorem Alike.inTurn {first second : VariantValue} (alike : first.Alike second) :
    first.InTurn second := by
  cases alike with
  | single value => exact .single value
  | @responsive first second perm distinct =>
    apply InTurn.responsive
    intro key
    -- Entries under one key are one entry, so any two lists of them stand in order.
    have unique : ∀ left ∈ first, ∀ right ∈ first, left.1 = key → right.1 = key → left = right := by
      intro left inside right within here there
      exact List.inj_on_of_nodup_map distinct inside within (here.trans there.symm)
    have ordered (entries : List (String × String)) : entries.Pairwise fun _ _ => True :=
      List.pairwise_of_forall fun _ _ => trivial
    apply List.Perm.eq_of_pairwise _ (ordered _) (ordered _) (perm.filter _)
    intro left right inside within _ _
    obtain ⟨inside, here⟩ := List.mem_filter.mp inside
    obtain ⟨within, there⟩ := List.mem_filter.mp within
    exact unique left inside right (perm.mem_iff.mpr within) (of_decide_eq_true here)
      (of_decide_eq_true there)

theorem initial?_inTurn {first second : VariantValue} (inTurn : first.InTurn second) :
    first.initial? = second.initial? := by
  cases inTurn with
  | single value => rfl
  | responsive same =>
    rw [initial?, initial?, ← Keyed.filter_name_eq, same, Keyed.filter_name_eq]

theorem permuted_of_sorted_eq {first second : VariantValue} (same : first.sorted = second.sorted) :
    first.Permuted second := by
  cases first with
  | single value => cases second <;> simp_all [sorted, Permuted.single]
  | responsive branches =>
    cases second with
    | single other => cases same
    | responsive others =>
      simp only [sorted, responsive.injEq] at same
      have perm := (List.mergeSort_perm others pairLe).symm.trans
        (same ▸ List.mergeSort_perm branches pairLe)
      exact .responsive perm.symm

end VariantValue

namespace VariantSelection

/-- Two selections that ask each group for the same. -/
def Alike (first second : VariantSelection) : Prop :=
  ∀ group, Option.Rel VariantValue.Alike (Keyed.get? first group) (Keyed.get? second group)

def Permuted (first second : VariantSelection) : Prop :=
  ∀ group, Option.Rel VariantValue.Permuted (Keyed.get? first group) (Keyed.get? second group)

/-- Two selections that ask each group at each breakpoint for the same in the same order. -/
def InTurn (first second : VariantSelection) : Prop :=
  ∀ group, Option.Rel VariantValue.InTurn (Keyed.get? first group) (Keyed.get? second group)

theorem Alike.inTurn {first second : VariantSelection} (alike : first.Alike second) :
    first.InTurn second := by
  intro group
  have asked := alike group
  generalize Keyed.get? first group = mine at asked ⊢
  generalize Keyed.get? second group = theirs at asked ⊢
  cases asked with
  | none => exact .none
  | some values => exact .some values.inTurn

theorem InTurn.refl (selection : VariantSelection) : selection.InTurn selection := by
  intro group
  cases Keyed.get? selection group with
  | none => exact .none
  | some value =>
    apply Option.Rel.some
    cases value with
    | single value => exact .single value
    | responsive branches => exact .responsive fun _ => rfl

theorem InTurn.symm {first second : VariantSelection} (inTurn : first.InTurn second) :
    second.InTurn first := by
  intro group
  have asked := inTurn group
  generalize Keyed.get? first group = mine at asked ⊢
  generalize Keyed.get? second group = theirs at asked ⊢
  cases asked with
  | none => exact .none
  | some values =>
    apply Option.Rel.some
    cases values with
    | single value => exact .single value
    | responsive same => exact .responsive fun key => (same key).symm

theorem permuted_of_key_eq {first second : VariantSelection} (same : first.key = second.key) :
    first.Permuted second := by
  intro group
  have sorted := first.get?_key group
  rw [same, second.get?_key] at sorted
  cases left : Keyed.get? first group with
  | none =>
    cases right : Keyed.get? second group with
    | none => exact .none
    | some value => simp [left, right] at sorted
  | some value =>
    cases right : Keyed.get? second group with
    | none => simp [left, right] at sorted
    | some other =>
      simp only [left, right, Option.map_some, Option.some.injEq] at sorted
      exact .some (VariantValue.permuted_of_sorted_eq sorted.symm)

theorem alike_of_key_eq {first second : VariantSelection} (once : first.NamesOnce)
    (same : first.key = second.key) : first.Alike second := by
  intro group
  have permuted := permuted_of_key_eq same group
  generalize right : Keyed.get? second group = theirs at permuted ⊢
  generalize left : Keyed.get? first group = mine at permuted ⊢
  cases permuted with
  | none => exact .none
  | some values =>
    apply Option.Rel.some
    cases values with
    | single value => exact .single value
    | responsive perm => exact .responsive perm (once group _ (Keyed.mem_of_get? left))

end VariantSelection

theorem Text.Chars.stripPrefix?_eq_some {pattern cs rest : List Char}
    (stripped : stripPrefix? pattern cs = some rest) : cs = pattern ++ rest := by
  induction pattern generalizing cs with
  | nil => simpa [stripPrefix?] using stripped
  | cons first pattern ih =>
    cases cs with
    | nil => simp [stripPrefix?] at stripped
    | cons c cs =>
      simp only [stripPrefix?] at stripped
      split at stripped
      · next same => rw [same, ih stripped, List.cons_append]
      · cases stripped

theorem Text.stripPrefix?_injective {pattern first second rest : String}
    (left : stripPrefix? pattern first = some rest)
    (right : stripPrefix? pattern second = some rest) :
    first = second := by
  obtain ⟨chars, stripped, rfl⟩ := Option.map_eq_some_iff.mp left
  obtain ⟨others, stripped_second, same⟩ := Option.map_eq_some_iff.mp right
  obtain rfl : others = chars := String.ofList_injective same
  apply String.toList_injective
  rw [Chars.stripPrefix?_eq_some stripped, Chars.stripPrefix?_eq_some stripped_second]

namespace StyleDefinition

theorem breakpointRank?_cases {breakpoints : List String} {key : String} {rank : Nat}
    (ranked : breakpointRank? breakpoints key = some rank) :
    (key = VariantValue.initialKey ∧ rank = 0) ∨
      ∃ name index, Text.stripPrefix? "@" key = some name ∧
        breakpoints.findIdx? (· = name) = some index ∧ rank = index + 1 := by
  unfold breakpointRank? at ranked
  split at ranked
  · next here => exact .inl ⟨here, (Option.some.inj ranked).symm⟩
  · obtain ⟨name, stripped, rest⟩ := Option.bind_eq_some_iff.mp ranked
    obtain ⟨index, found, last⟩ := Option.bind_eq_some_iff.mp rest
    exact .inr ⟨name, index, stripped, found, (Option.some.inj last).symm⟩

theorem breakpointRank?_injective {breakpoints : List String} {first second : String} {rank : Nat}
    (left : breakpointRank? breakpoints first = some rank)
    (right : breakpointRank? breakpoints second = some rank) : first = second := by
  rcases breakpointRank?_cases left with ⟨here, zero⟩ | ⟨name, index, stripped, found, rfl⟩
  · rcases breakpointRank?_cases right with ⟨there, -⟩ | ⟨_, _, -, -, positive⟩
    · rw [here, there]
    · omega
  · rcases breakpointRank?_cases right with
      ⟨-, zero⟩ | ⟨other, place, stripped_other, found_other, same⟩
    · omega
    · obtain rfl : index = place := by omega
      obtain ⟨inside, named, -⟩ := List.findIdx?_eq_some_iff_getElem.mp found
      obtain ⟨_, named_other, -⟩ := List.findIdx?_eq_some_iff_getElem.mp found_other
      obtain rfl : name = other :=
        (of_decide_eq_true named).symm.trans (of_decide_eq_true named_other)
      exact Text.stripPrefix?_injective stripped stripped_other

variable {definition : StyleDefinition} {breakpoints : List String} {group : String}
  {values : Keyed StyleNode}

/-- A branch is made of a breakpoint key and the value asked for at it. -/
def Branches (definition : StyleDefinition) (breakpoints : List String) (group : String)
    (values : Keyed StyleNode) (entry : String × String) (branch : Branch) : Prop :=
  branch.key = entry.1 ∧ breakpointRank? breakpoints entry.1 = some branch.rank ∧
    definition.variantNode group values entry.2 = .ok (branch.value, branch.node)

theorem branches_eq_ok {asked : List (String × String)} {found : List Branch} :
    definition.branches breakpoints group values asked = .ok found ↔
      List.Forall₂ (definition.Branches breakpoints group values) asked found := by
  induction asked generalizing found with
  | nil => simp [branches, eq_comm]
  | cons entry rest ih =>
    obtain ⟨key, value⟩ := entry
    rw [branches, List.forall₂_cons_left_iff]
    cases ranked : breakpointRank? breakpoints key with
    | none => simp [Branches, ranked]
    | some rank =>
      simp only [bind_eq_ok, ih]
      constructor
      · rintro ⟨⟨name, node⟩, chosen, others, rest, last⟩
        obtain rfl := Except.ok.inj last
        exact ⟨_, others, ⟨rfl, ranked, chosen⟩, rest, rfl⟩
      · rintro ⟨branch, others, ⟨rfl, same, chosen⟩, rest, rfl⟩
        obtain rfl := Option.some.inj (ranked.symm.trans same)
        exact ⟨_, chosen, others, rest, rfl⟩

theorem branches_unique {entry : String × String} {first second : Branch}
    (left : definition.Branches breakpoints group values entry first)
    (right : definition.Branches breakpoints group values entry second) : first = second := by
  obtain ⟨key, rank, chosen⟩ := left
  obtain ⟨key_second, rank_second, chosen_second⟩ := right
  have ranks := Option.some.inj (rank.symm.trans rank_second)
  obtain ⟨names, nodes⟩ := Prod.ext_iff.mp (Except.ok.inj (chosen.symm.trans chosen_second))
  cases first
  cases second
  simp_all

/-- Each branch is made on its own. -/
theorem exists_branches {asked others : List (String × String)} (within : asked ⊆ others)
    {found : List Branch} (made : definition.branches breakpoints group values others = .ok found) :
    ∃ branches, definition.branches breakpoints group values asked = .ok branches := by
  have each := branches_eq_ok.mp made
  simp only [branches_eq_ok]
  induction asked with
  | nil => exact ⟨[], .nil⟩
  | cons entry rest ih =>
    obtain ⟨member, within⟩ := List.cons_subset.mp within
    obtain ⟨branch, -, own⟩ := exists_right_of_forall₂ each member
    obtain ⟨branches, makes⟩ := ih within
    exact ⟨branch :: branches, .cons own makes⟩

/-- The branches at a rank are those of one breakpoint. -/
theorem filter_rank {first second : List (String × String)}
    (same : ∀ key, (first.filter fun entry => entry.1 = key) = second.filter fun entry =>
      entry.1 = key)
    (rank : Nat) :
    (first.filter fun entry => breakpointRank? breakpoints entry.1 = some rank) =
      second.filter fun entry => breakpointRank? breakpoints entry.1 = some rank := by
  by_cases some_key : ∃ key, breakpointRank? breakpoints key = some rank
  · obtain ⟨key, ranked⟩ := some_key
    have one_key : ∀ entry : String × String,
        decide (breakpointRank? breakpoints entry.1 = some rank) = decide (entry.1 = key) := by
      intro entry
      rw [decide_eq_decide]
      constructor
      · intro own
        exact breakpointRank?_injective own ranked
      · rintro rfl
        exact ranked
    simpa only [one_key] using same key
  · simp only [not_exists] at some_key
    simp [some_key]

theorem forall₂_filter_rank {asked : List (String × String)} {made : List Branch}
    (each : List.Forall₂ (definition.Branches breakpoints group values) asked made) (rank : Nat) :
    List.Forall₂ (definition.Branches breakpoints group values)
      (asked.filter fun entry => breakpointRank? breakpoints entry.1 = some rank)
      (made.filter fun branch => branch.rank = rank) := by
  apply List.rel_filter _ each
  rintro entry branch ⟨-, ranked, -⟩
  simp [ranked]

/-- The order among branches of different breakpoints does not matter. -/
theorem branches_inTurn {first second : List (String × String)}
    (same : ∀ key, (first.filter fun entry => entry.1 = key) = second.filter fun entry =>
      entry.1 = key)
    {found : List Branch} (made : definition.branches breakpoints group values second = .ok found) :
    ∃ branches, definition.branches breakpoints group values first = .ok branches ∧
      (branches.mergeSort fun first second => first.rank ≤ second.rank) =
        found.mergeSort fun first second => first.rank ≤ second.rank := by
  have within : first ⊆ second := by
    intro entry member
    have own : entry ∈ first.filter fun other => other.1 = entry.1 :=
      List.mem_filter.mpr ⟨member, decide_eq_true rfl⟩
    rw [same] at own
    exact List.mem_of_mem_filter own
  obtain ⟨branches, makes⟩ := exists_branches within made
  refine ⟨branches, makes, ?_⟩
  apply mergeSort_eq_of_rank
  intro rank
  have mine := forall₂_filter_rank (branches_eq_ok.mp makes) rank
  have theirs := forall₂_filter_rank (branches_eq_ok.mp made) rank
  rw [filter_rank same] at mine
  have unique : Relator.RightUnique (definition.Branches breakpoints group values) :=
    fun _ _ _ => branches_unique
  exact unique.forall₂ mine theirs

theorem layGroup_inTurn {first second : VariantSelection} (inTurn : first.InTurn second)
    {merged after : Merged}
    (laid : definition.layGroup second breakpoints merged group values = .ok after) :
    definition.layGroup first breakpoints merged group values = .ok after := by
  unfold layGroup at laid ⊢
  have asked := inTurn group
  generalize Keyed.get? first group = mine at asked ⊢
  generalize Keyed.get? second group = theirs at asked laid
  cases asked with
  | none => exact laid
  | some values_inTurn =>
    cases values_inTurn with
    | single value => exact laid
    | responsive same =>
      obtain ⟨found, made, last⟩ := bind_eq_ok.mp laid
      obtain ⟨branches, makes, sorted⟩ := branches_inTurn same made
      exact bind_eq_ok.mpr ⟨branches, makes, by rw [sorted]; exact last⟩

theorem compared?_inTurn {first second : VariantSelection} (inTurn : first.InTurn second)
    (effective : List (String × String)) (group : String) :
    first.compared? effective group = second.compared? effective group := by
  unfold VariantSelection.compared?
  have asked := inTurn group
  generalize Keyed.get? first group = mine at asked ⊢
  generalize Keyed.get? second group = theirs at asked ⊢
  cases asked with
  | none => rfl
  | some values_inTurn => simp [VariantValue.initial?_inTurn values_inTurn]

/-- Selections that ask at each breakpoint for the same in the same order resolve alike. -/
theorem resolve_inTurn {first second : VariantSelection} (inTurn : first.InTurn second)
    {override : Option StyleNode} {node : StyleNode}
    (resolved : definition.resolve second breakpoints override = .ok node) :
    definition.resolve first breakpoints override = .ok node := by
  have holds : ∀ (compound : CompoundVariant) effective,
      compound.holds first effective = compound.holds second effective := by
    intro compound effective
    simp only [CompoundVariant.holds, compared?_inTurn inTurn]
  obtain ⟨merged, laid, last⟩ := bind_eq_ok.mp resolved
  have lays := foldlM_eq_ok (fun _ _ _ own => layGroup_inTurn inTurn own) laid
  rw [resolve, bind_eq_ok]
  exact ⟨merged, lays, by simpa only [holds] using last⟩

/-- Whether a group can be laid depends neither on the order of the branches nor on what was laid
before. -/
theorem layGroup_permuted {first second : VariantSelection} (permuted : first.Permuted second)
    {merged after : Merged}
    (laid : definition.layGroup second breakpoints merged group values = .ok after)
    (other : Merged) :
    ∃ next, definition.layGroup first breakpoints other group values = .ok next := by
  have chosen {value : String}
      (laid : (definition.variantNode group values value >>= fun found =>
        pure (merged.choose group found.1 found.2)) = .ok after) :
      ∃ next, (definition.variantNode group values value >>= fun found =>
        pure (other.choose group found.1 found.2)) = .ok next := by
    obtain ⟨found, chosen, -⟩ := bind_eq_ok.mp laid
    exact ⟨_, bind_eq_ok.mpr ⟨found, chosen, rfl⟩⟩
  unfold layGroup at laid ⊢
  have asked := permuted group
  generalize Keyed.get? first group = mine at asked ⊢
  generalize Keyed.get? second group = theirs at asked laid
  cases asked with
  | none =>
    cases default : definition.default? group with
    | none => exact ⟨other, rfl⟩
    | some value =>
      simp only [default] at laid
      exact chosen laid
  | some values_permuted =>
    cases values_permuted with
    | single value => exact chosen laid
    | responsive perm =>
      obtain ⟨found, made, -⟩ := bind_eq_ok.mp laid
      obtain ⟨branches, makes⟩ := exists_branches perm.subset made
      exact ⟨_, bind_eq_ok.mpr ⟨branches, makes, rfl⟩⟩

/-- Selections that ask for the same in whatever order are refused alike. -/
theorem resolve_permuted {first second : VariantSelection} (permuted : first.Permuted second)
    {override : Option StyleNode} {node : StyleNode}
    (resolved : definition.resolve second breakpoints override = .ok node) :
    ∃ other, definition.resolve first breakpoints override = .ok other := by
  obtain ⟨merged, laid, -⟩ := bind_eq_ok.mp resolved
  have each (merged : Merged) (entry : String × Keyed StyleNode) (after : Merged)
      (own : definition.layGroup second breakpoints merged entry.1 entry.2 = .ok after) :=
    layGroup_permuted permuted own
  obtain ⟨last, lays⟩ := foldlM_exists_ok each laid ⟨definition.base, []⟩
  exact ⟨_, bind_eq_ok.mpr ⟨last, lays, rfl⟩⟩

end StyleDefinition

/-- A key determines what a style resolves to. -/
theorem resolve_of_key_eq {definition : StyleDefinition} {first second : VariantSelection}
    {breakpoints : List String} {override : Option StyleNode} {node : StyleNode}
    (once : first.NamesOnce) (same : first.key = second.key)
    (resolved : definition.resolve second breakpoints override = .ok node) :
    definition.resolve first breakpoints override = .ok node :=
  StyleDefinition.resolve_inTurn (VariantSelection.alike_of_key_eq once same).inTurn resolved

end AtomicCss
