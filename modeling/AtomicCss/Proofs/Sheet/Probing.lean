import AtomicCss.Proofs.Sheet.Index
import Mathlib.Data.List.Perm.Subperm

/-!
Finding a declaration again.

A new rule takes the first slot from the hash of its declaration on that no other rule holds, and
rules never leave their slots. So whatever the hash function is, a declaration that has a rule is
found again, and each declaration has at most one rule. As many slots in a row as there are rules
and one more cannot all be held while the slots are not used up.
-/

namespace AtomicCss.AtomicIndex

variable {index : AtomicIndex} {declaration : AtomicDeclaration} {steps : Nat} {slot : UInt64}

def HeldByOther (index : AtomicIndex) (declaration : AtomicDeclaration) (slot : UInt64) : Prop :=
  ∃ rule, index.get? slot = some rule ∧ rule.declaration ≠ declaration

/-- The slots from `slot` on that a walk passes over. -/
def Passes (index : AtomicIndex) (declaration : AtomicDeclaration) (slot : UInt64) (count : Nat) :
    Prop :=
  ∀ earlier, earlier < count → index.HeldByOther declaration (slot + .ofNat earlier)

/-- How a walk ends that may take a number of steps. -/
inductive Probes (index : AtomicIndex) (declaration : AtomicDeclaration) (steps : Nat)
    (slot : UInt64) : AtomicRule ⊕ UInt64 → Prop where
  | found {count rule} : count < steps → index.Passes declaration slot count →
      index.get? (slot + .ofNat count) = some rule → rule.declaration = declaration →
      Probes index declaration steps slot (.inl rule)
  | free {count} : count < steps → index.Passes declaration slot count →
      index.get? (slot + .ofNat count) = none →
      Probes index declaration steps slot (.inr (slot + .ofNat count))
  | exhausted {last} : index.Passes declaration slot steps →
      Probes index declaration steps slot (.inr last)

theorem next_slot (slot : UInt64) (count : Nat) :
    slot + 1 + .ofNat count = slot + .ofNat (count + 1) := by
  rw [UInt64.ofNat_add, UInt64.add_comm (UInt64.ofNat count), ← UInt64.add_assoc]
  rfl

theorem first_slot (slot : UInt64) : slot + .ofNat 0 = slot := UInt64.add_zero slot

theorem Passes.cons (here : index.HeldByOther declaration slot) {count : Nat}
    (passes : index.Passes declaration (slot + 1) count) :
    index.Passes declaration slot (count + 1) := by
  intro earlier before
  cases earlier with
  | zero => exact (first_slot slot).symm ▸ here
  | succ earlier => exact next_slot slot earlier ▸ passes earlier (by omega)

theorem probes_probe (index : AtomicIndex) (declaration : AtomicDeclaration) (steps : Nat)
    (slot : UInt64) : index.Probes declaration steps slot (index.probe declaration steps slot) := by
  induction steps generalizing slot with
  | zero => exact .exhausted fun earlier before => absurd before (Nat.not_lt_zero _)
  | succ steps ih =>
    have nothing : index.Passes declaration slot 0 :=
      fun earlier before => absurd before (Nat.not_lt_zero _)
    rw [probe]
    split
    · next unheld =>
      have ends := Probes.free (Nat.succ_pos steps) nothing ((first_slot slot).symm ▸ unheld)
      rwa [first_slot] at ends
    · next rule held =>
      split
      · next same => exact .found (Nat.succ_pos steps) nothing ((first_slot slot).symm ▸ held) same
      · next other =>
        have here : index.HeldByOther declaration slot := ⟨rule, held, other⟩
        have rest := ih (slot + 1)
        generalize index.probe declaration steps (slot + 1) = result at rest ⊢
        cases rest with
        | found before passes there same =>
          rw [next_slot] at there
          exact .found (Nat.succ_lt_succ before) (passes.cons here) there same
        | free before passes unheld =>
          rw [next_slot] at unheld ⊢
          exact .free (Nat.succ_lt_succ before) (passes.cons here) unheld
        | exhausted passes => exact .exhausted (passes.cons here)

theorem slots_injective {first second : Nat} (left : first < UInt64.size)
    (right : second < UInt64.size) (same : slot + .ofNat first = slot + .ofNat second) :
    first = second := by
  have values := congrArg UInt64.toNat (UInt64.add_right_inj slot |>.mp same)
  rwa [UInt64.toNat_ofNat_of_lt' left, UInt64.toNat_ofNat_of_lt' right] at values

/-- While slots are left, a walk does not pass over more slots than there are rules. -/
theorem count_of_passes (small : index.size < UInt64.size) {count : Nat}
    (passes : index.Passes declaration slot count) : count ≤ index.size := by
  by_contra more
  -- The slots passed over are pairwise different and each is held by a rule of its own.
  have walked : ((List.range (index.size + 1)).map fun earlier => slot + .ofNat earlier).Nodup := by
    apply List.Nodup.map_on _ List.nodup_range
    intro first left second right same
    rw [List.mem_range] at left right
    exact slots_injective (by omega) (by omega) same
  have held : ((List.range (index.size + 1)).map fun earlier => slot + .ofNat earlier) ⊆
      index.rules.map (·.slot) := by
    intro other member
    obtain ⟨earlier, before, rfl⟩ := List.mem_map.mp member
    rw [List.mem_range] at before
    obtain ⟨rule, there, -⟩ := passes earlier (by omega)
    obtain ⟨inside, same⟩ := slot_of_get? there
    exact List.mem_map.mpr ⟨rule, inside, same⟩
  have fits := (walked.subperm held).length_le
  simp only [List.length_map, List.length_range] at fits
  exact absurd fits (Nat.not_succ_le_self _)

/-- Every rule stands in the first slot from the hash of its declaration on that was free for it. -/
structure Probed (hash : AtomicDeclaration → UInt64) (index : AtomicIndex) : Prop where
  slots : (index.rules.map (·.slot)).Nodup
  declarations : (index.rules.map (·.declaration)).Nodup
  reached : ∀ rule ∈ index.rules, ∃ count, count < index.size ∧
    rule.slot = hash rule.declaration + .ofNat count ∧
      index.Passes rule.declaration (hash rule.declaration) count

variable {hash : AtomicDeclaration → UInt64}

theorem probed_empty (namePrefix : String) : (empty namePrefix).Probed hash :=
  ⟨List.nodup_nil, List.nodup_nil, List.forall_mem_nil _⟩

/-- A declaration that has a rule is found. -/
theorem Probed.probe_of_mem (probed : index.Probed hash) {rule : AtomicRule}
    (member : rule ∈ index.rules) :
    index.probe rule.declaration (index.size + 1) (hash rule.declaration) = .inl rule := by
  obtain ⟨own, within, there, passed⟩ := probed.reached rule member
  have held := get?_of_mem probed.slots member
  rw [there] at held
  have not_passed {count : Nat}
      (passes : index.Passes rule.declaration (hash rule.declaration) count) : count ≤ own := by
    by_contra beyond
    obtain ⟨other, found, different⟩ := passes own (by omega)
    exact different (Option.some.inj (held.symm.trans found) ▸ rfl)
  have probes := index.probes_probe rule.declaration (index.size + 1) (hash rule.declaration)
  generalize index.probe rule.declaration _ _ = result at probes ⊢
  cases probes with
  | found _ _ found same =>
    congr 1
    exact List.inj_on_of_nodup_map probed.declarations (slot_of_get? found).1 member same
  | @free count _ passes unheld =>
    rcases Nat.lt_or_eq_of_le (not_passed passes) with before | rfl
    · obtain ⟨other, found, -⟩ := passed count before
      cases unheld.symm.trans found
    · cases unheld.symm.trans held
  | exhausted passes =>
    have few := not_passed passes
    omega

theorem Probed.emitWith_of_mem (probed : index.Probed hash) {rule : AtomicRule}
    (member : rule ∈ index.rules) :
    index.emitWith hash rule.declaration = ((rule.className, none), index) := by
  rw [emitWith, probed.probe_of_mem member]

theorem get?_withRule (index : AtomicIndex) (rule : AtomicRule) (slot : UInt64) :
    (index.withRule rule).get? slot = if rule.slot = slot then some rule else index.get? slot := by
  by_cases here : rule.slot = slot <;> simp [get?, withRule, here]

theorem Passes.withRule {rule : AtomicRule} (unheld : index.get? rule.slot = none) {count : Nat}
    (passes : index.Passes declaration slot count) :
    (index.withRule rule).Passes declaration slot count := by
  intro earlier before
  obtain ⟨other, found, different⟩ := passes earlier before
  refine ⟨other, ?_, different⟩
  rw [get?_withRule, if_neg]
  · exact found
  · intro same
    cases unheld.symm.trans (same ▸ found)

theorem Probed.withRule (probed : index.Probed hash) {rule : AtomicRule}
    (absent : rule.declaration ∉ index.rules.map (·.declaration))
    (unheld : index.get? rule.slot = none) {count : Nat} (within : count < index.size + 1)
    (there : rule.slot = hash rule.declaration + .ofNat count)
    (passes : index.Passes rule.declaration (hash rule.declaration) count) :
    (index.withRule rule).Probed hash where
  slots := by
    refine List.nodup_cons.mpr ⟨?_, probed.slots⟩
    intro taken
    obtain ⟨other, inside, same⟩ := List.mem_map.mp taken
    have held := get?_of_mem probed.slots inside
    rw [same] at held
    cases unheld.symm.trans held
  declarations := List.nodup_cons.mpr ⟨absent, probed.declarations⟩
  reached other member := by
    rcases List.mem_cons.mp member with rfl | old
    · exact ⟨count, within, there, passes.withRule unheld⟩
    · obtain ⟨own, before, at_slot, passed⟩ := probed.reached other old
      exact ⟨own, Nat.lt_succ_of_lt before, at_slot, passed.withRule unheld⟩

/-- A declaration without a rule gets the next class, in a free slot. -/
theorem Probed.emitWith_of_absent (probed : index.Probed hash) (small : index.size < UInt64.size)
    (absent : declaration ∉ index.rules.map (·.declaration)) :
    ∃ slot, index.emitWith hash declaration =
        (((index.nextRule slot declaration).className, some (index.nextRule slot declaration)),
          index.withRule (index.nextRule slot declaration)) ∧
      (index.withRule (index.nextRule slot declaration)).Probed hash := by
  have probes := index.probes_probe declaration (index.size + 1) (hash declaration)
  unfold emitWith
  generalize index.probe declaration _ _ = result at probes ⊢
  cases probes with
  | found _ _ found same =>
    obtain ⟨inside, -⟩ := slot_of_get? found
    exact absurd (List.mem_map.mpr ⟨_, inside, same⟩) absent
  | free within passes unheld => exact ⟨_, rfl, probed.withRule absent unheld within rfl passes⟩
  | exhausted passes =>
    have few := count_of_passes small passes
    omega

end AtomicCss.AtomicIndex
