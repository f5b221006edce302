import AtomicCss.Proofs.Pairs
import AtomicCss.Proofs.Rule.Flattening
import AtomicCss.Rule.Atomic
import Mathlib.Data.List.Induction

/-!
What collapsing keeps of flat rules.

Each place, that is a property under a selector and at-rules, gets one declaration with the values
of the entry that wrote it last. So of two parts that follow one another the second decides wherever
it writes, and the first elsewhere. The declarations stand in the order in which their places are
first written, which later entries for a place do not change.
-/

namespace AtomicCss

/-- A property under a selector and at-rules. -/
abbrev RulePlace := List String × String × String

def FlatRule.place (rule : FlatRule) : RulePlace := (rule.atRules, rule.selector, rule.property)

def AtomicDeclaration.place (declaration : AtomicDeclaration) : RulePlace :=
  (declaration.atRules, declaration.selector, declaration.property)

theorem AtomicDeclaration.eq_iff {first second : AtomicDeclaration} :
    first = second ↔ first.place = second.place ∧ first.values = second.values := by
  constructor
  · rintro rfl
    exact ⟨rfl, rfl⟩
  · cases first
    cases second
    simp +contextual [place]

theorem AtomicDeclaration.isFor_iff (declaration : AtomicDeclaration) (rule : FlatRule) :
    declaration.isFor rule = true ↔ declaration.place = rule.place := by
  simp [isFor, place, FlatRule.place]

namespace Collapse

/-- The values at a place and the entry that they come from. -/
abbrev Standing := Option (List String × Nat)

/-- What stands at a place once a rule is written there. -/
def write (rule : FlatRule) : Standing → Standing
  | some (values, origin) =>
    some ((if origin = rule.origin then values else []) ++ [rule.value], rule.origin)
  | none => some ([rule.value], rule.origin)

def writeAll (rules : List FlatRule) (before : Standing) : Standing :=
  rules.foldl (fun standing rule => write rule standing) before

def latest (place : RulePlace) (rules : List FlatRule) : Standing :=
  writeAll (rules.filter fun rule => rule.place = place) none

/-- What declarations under construction have at a place. -/
def held (place : RulePlace) (taken : List (AtomicDeclaration × Nat)) : Standing :=
  (taken.find? fun entry => entry.1.place = place).map fun entry => (entry.1.values, entry.2)

theorem held_cons (place : RulePlace) (entry : AtomicDeclaration × Nat)
    (rest : List (AtomicDeclaration × Nat)) :
    held place (entry :: rest) =
      if entry.1.place = place then some (entry.1.values, entry.2) else held place rest := by
  by_cases here : entry.1.place = place <;> simp [held, here]

theorem held_takeUp (place : RulePlace) (rule : FlatRule) (taken : List (AtomicDeclaration × Nat)) :
    held place (AtomicDeclaration.takeUp rule taken) =
      if rule.place = place then write rule (held place taken) else held place taken := by
  induction taken with
  | nil => exact held_cons place _ []
  | cons entry rest ih =>
    obtain ⟨declaration, origin⟩ := entry
    rw [AtomicDeclaration.takeUp]
    split
    · next own =>
      have same := (declaration.isFor_iff rule).mp own
      rw [held_cons, held_cons]
      change (if declaration.place = place then _ else _) = _
      by_cases here : rule.place = place
      · simp [same, here, write]
      · simp [same, here]
    · next other =>
      have apart : declaration.place ≠ rule.place := by
        intro same
        exact other ((declaration.isFor_iff rule).mpr same)
      rw [held_cons, held_cons, ih]
      by_cases here : rule.place = place
      · simp [here, here ▸ apart]
      · simp [here]

theorem held_foldl (place : RulePlace) (rules : List FlatRule)
    (taken : List (AtomicDeclaration × Nat)) :
    held place (rules.foldl (fun taken rule => AtomicDeclaration.takeUp rule taken) taken) =
      writeAll (rules.filter fun rule => rule.place = place) (held place taken) := by
  induction rules generalizing taken with
  | nil => rfl
  | cons rule rest ih =>
    rw [List.foldl_cons, ih, held_takeUp]
    by_cases here : rule.place = place <;> simp [here, writeAll]

/-- A rule adds its place at the end, unless it was taken up before. -/
theorem places_takeUp (rule : FlatRule) (taken : List (AtomicDeclaration × Nat)) :
    (AtomicDeclaration.takeUp rule taken).map (·.1.place) =
      if rule.place ∈ taken.map (·.1.place) then taken.map (·.1.place)
      else taken.map (·.1.place) ++ [rule.place] := by
  induction taken with
  | nil => rfl
  | cons entry rest ih =>
    obtain ⟨declaration, origin⟩ := entry
    rw [AtomicDeclaration.takeUp]
    split
    · next own =>
      have same := (declaration.isFor_iff rule).mp own
      have present : rule.place ∈ ((declaration, origin) :: rest).map (·.1.place) :=
        List.mem_map.mpr ⟨_, List.mem_cons_self, same⟩
      rw [if_pos present]
      rfl
    · next other =>
      have apart : rule.place ≠ declaration.place := by
        intro same
        exact other ((declaration.isFor_iff rule).mpr same.symm)
      rw [List.map_cons, List.map_cons, ih]
      by_cases there : rule.place ∈ rest.map (·.1.place)
      · rw [if_pos there, if_pos (List.mem_cons_of_mem _ there)]
      · rw [if_neg there, if_neg (List.not_mem_cons_of_ne_of_not_mem apart there)]
        rfl

theorem nodup_takeUp (rule : FlatRule) {taken : List (AtomicDeclaration × Nat)}
    (apart : (taken.map (·.1.place)).Nodup) :
    ((AtomicDeclaration.takeUp rule taken).map (·.1.place)).Nodup := by
  rw [places_takeUp]
  split
  · exact apart
  · next fresh =>
    rw [List.nodup_append]
    refine ⟨apart, by simp, ?_⟩
    intro place member other last
    rw [List.mem_singleton.mp last]
    rintro rfl
    exact fresh member

theorem mem_iff_held {taken : List (AtomicDeclaration × Nat)}
    (apart : (taken.map (·.1.place)).Nodup) (declaration : AtomicDeclaration) (origin : Nat) :
    (declaration, origin) ∈ taken ↔
      held declaration.place taken = some (declaration.values, origin) := by
  induction taken with
  | nil => simp [held]
  | cons entry rest ih =>
    obtain ⟨fresh, apart⟩ := List.nodup_cons.mp apart
    rw [List.mem_cons, held_cons, ih apart]
    by_cases here : entry.1.place = declaration.place
    · have absent : held declaration.place rest ≠ some (declaration.values, origin) := by
        intro standing
        have member := (ih apart).mpr standing
        exact fresh (List.mem_map.mpr ⟨_, member, here.symm⟩)
      simp only [if_pos here, absent, or_false]
      rw [Prod.ext_iff, AtomicDeclaration.eq_iff]
      simp only [here.symm, true_and, Option.some.injEq, Prod.mk.injEq, eq_comm]
    · have different : (declaration, origin) ≠ entry := by
        rintro rfl
        exact here rfl
      simp [here, different]

theorem writeAll_cons (rule : FlatRule) (rest : List FlatRule) (before : Standing) :
    writeAll (rule :: rest) before = writeAll rest (write rule before) := rfl

theorem origin_of_writeAll {rules : List FlatRule} {before : Standing} {values : List String}
    {origin : Nat} (standing : writeAll rules before = some (values, origin)) :
    (rules = [] ∧ before = some (values, origin)) ∨ ∃ rule ∈ rules, rule.origin = origin := by
  induction rules generalizing before with
  | nil => exact .inl ⟨rfl, standing⟩
  | cons rule rest ih =>
    rcases ih standing with ⟨rfl, last⟩ | ⟨other, member, same⟩
    · right
      refine ⟨rule, List.mem_cons_self, ?_⟩
      cases before <;> simp_all [write]
    · exact .inr ⟨other, List.mem_cons_of_mem _ member, same⟩

theorem origin_of_latest {place : RulePlace} {rules : List FlatRule} {values : List String}
    {origin : Nat} (standing : latest place rules = some (values, origin)) :
    ∃ rule ∈ rules, rule.place = place ∧ rule.origin = origin := by
  rcases origin_of_writeAll standing with ⟨-, nothing⟩ | ⟨rule, member, same⟩
  · cases nothing
  · obtain ⟨member, here⟩ := List.mem_filter.mp member
    exact ⟨rule, member, of_decide_eq_true here, same⟩

/-- An entry that writes a place afresh leaves there what it leaves without anything before. -/
theorem writeAll_of_apart {rules : List FlatRule} {before : Standing} (some_rule : rules ≠ [])
    (apart : ∀ values origin, before = some (values, origin) →
      ∀ rule ∈ rules, origin ≠ rule.origin) :
    writeAll rules before = writeAll rules none := by
  cases rules with
  | nil => exact absurd rfl some_rule
  | cons rule rest =>
    rw [writeAll_cons, writeAll_cons]
    cases before with
    | none => rfl
    | some standing =>
      have other := apart standing.1 standing.2 rfl rule List.mem_cons_self
      simp [write, other]

theorem writeAll_some (rules : List FlatRule) (standing : List String × Nat) :
    ∃ last, writeAll rules (some standing) = some last := by
  induction rules generalizing standing with
  | nil => exact ⟨standing, rfl⟩
  | cons rule rest ih => exact ih _

/-- Of two parts whose entries differ, the second decides where it writes. -/
theorem latest_append {front back : List FlatRule} (place : RulePlace)
    (apart : ∀ first ∈ front, ∀ second ∈ back, first.origin ≠ second.origin) :
    latest place (front ++ back) = (latest place back).or (latest place front) := by
  unfold latest
  rw [List.filter_append, writeAll, List.foldl_append, ← writeAll, ← writeAll]
  have origins : ∀ values origin,
      writeAll (front.filter fun rule => rule.place = place) none = some (values, origin) →
        ∀ rule ∈ back.filter fun rule => rule.place = place, origin ≠ rule.origin := by
    intro values origin standing second member
    obtain ⟨first, inside, -, rfl⟩ := origin_of_latest standing
    exact apart first inside second (List.mem_filter.mp member).1
  cases written : back.filter fun rule => rule.place = place with
  | nil => rfl
  | cons rule rest =>
    rw [written] at origins
    rw [writeAll_of_apart (List.cons_ne_nil _ _) origins]
    obtain ⟨last, standing⟩ := writeAll_some rest ([rule.value], rule.origin)
    rw [writeAll_cons, write, standing]
    rfl

theorem shift_le_origin {shift : Nat} {rules moved : List FlatRule}
    (moves : List.Forall₂ (Flatten.Moved shift) rules moved) :
    ∀ rule ∈ moved, shift ≤ rule.origin := by
  induction moves with
  | nil => simp
  | cons move _ ih =>
    intro rule member
    rcases List.mem_cons.mp member with rfl | there
    · rw [move]
      exact Nat.le_add_left _ _
    · exact ih rule there

theorem latest_moved {shift : Nat} {rules moved : List FlatRule} (place : RulePlace)
    (moves : List.Forall₂ (Flatten.Moved shift) rules moved) :
    latest place moved = (latest place rules).map fun standing =>
      (standing.1, standing.2 + shift) := by
  have general : ∀ before : Standing,
      writeAll (moved.filter fun rule => rule.place = place)
          (before.map fun standing => (standing.1, standing.2 + shift)) =
        (writeAll (rules.filter fun rule => rule.place = place) before).map
          fun standing => (standing.1, standing.2 + shift) := by
    induction moves with
    | nil => exact fun _ => rfl
    | @cons rule copy rules moved move _ ih =>
      intro before
      have same : copy.place = rule.place := by rw [move]; rfl
      have step : write copy (before.map fun standing => (standing.1, standing.2 + shift)) =
          (write rule before).map fun standing => (standing.1, standing.2 + shift) := by
        rw [move]
        cases before <;> simp [write]
      by_cases here : rule.place = place
      · simp only [List.filter_cons, same, here, decide_true, if_true, writeAll_cons, step, ih]
      · simpa only [List.filter_cons, same, here, decide_false, Bool.false_eq_true, if_false]
          using ih before
  exact general none

theorem nodup_taken (rules : List FlatRule) :
    ((rules.foldl (fun taken rule => AtomicDeclaration.takeUp rule taken) []).map
      (·.1.place)).Nodup := by
  have general : ∀ taken : List (AtomicDeclaration × Nat), (taken.map (·.1.place)).Nodup →
      ((rules.foldl (fun taken rule => AtomicDeclaration.takeUp rule taken) taken).map
        (·.1.place)).Nodup := by
    induction rules with
    | nil => exact fun _ apart => apart
    | cons rule rest ih => exact fun taken apart => ih _ (nodup_takeUp rule apart)
  exact general [] List.nodup_nil

end Collapse

open Collapse

theorem nodup_places_collapse (rules : List FlatRule) :
    ((collapse rules).map AtomicDeclaration.place).Nodup := by
  rw [collapse, List.map_map]
  exact nodup_taken rules

/-- A place is declared with the values that were written there last. -/
theorem mem_collapse {rules : List FlatRule} {declaration : AtomicDeclaration} :
    declaration ∈ collapse rules ↔
      ∃ origin, latest declaration.place rules = some (declaration.values, origin) := by
  have held_latest : held declaration.place
      (rules.foldl (fun taken rule => AtomicDeclaration.takeUp rule taken) []) =
        latest declaration.place rules := held_foldl _ rules []
  simp only [collapse, List.mem_map, Prod.exists, exists_and_right, exists_eq_right,
    mem_iff_held (nodup_taken rules), held_latest]

theorem exists_rule_of_mem_collapse {rules : List FlatRule} {declaration : AtomicDeclaration}
    (member : declaration ∈ collapse rules) : ∃ rule ∈ rules, rule.place = declaration.place := by
  obtain ⟨origin, standing⟩ := mem_collapse.mp member
  obtain ⟨rule, inside, here, -⟩ := origin_of_latest standing
  exact ⟨rule, inside, here⟩

/-- Of two parts the second decides at the places that it writes. -/
theorem mem_collapse_append {shift : Nat} {front back moved : List FlatRule}
    (moves : List.Forall₂ (Flatten.Moved shift) back moved)
    (before : ∀ rule ∈ front, rule.origin < shift) (declaration : AtomicDeclaration) :
    declaration ∈ collapse (front ++ moved) ↔
      declaration ∈ collapse back ∨
        (declaration ∈ collapse front ∧ ∀ other ∈ collapse back,
          other.place ≠ declaration.place) := by
  have apart : ∀ first ∈ front, ∀ second ∈ moved, first.origin ≠ second.origin := by
    intro first inside second member
    have early := before first inside
    have late := shift_le_origin moves second member
    omega
  rw [mem_collapse, latest_append _ apart, latest_moved _ moves]
  cases standing : latest declaration.place back with
  | none =>
    have silent : ∀ other ∈ collapse back, other.place ≠ declaration.place := by
      intro other member same
      obtain ⟨origin, written⟩ := mem_collapse.mp member
      rw [same, standing] at written
      cases written
    have absent : declaration ∉ collapse back := by
      intro member
      exact silent declaration member rfl
    rw [Option.map_none, Option.none_or, ← mem_collapse]
    constructor
    · intro member
      exact .inr ⟨member, silent⟩
    · rintro (member | ⟨member, -⟩)
      · exact absurd member absent
      · exact member
  | some last =>
    obtain ⟨values, origin⟩ := last
    have spoken : { declaration with values } ∈ collapse back := mem_collapse.mpr ⟨origin, standing⟩
    have loud : ¬ ∀ other ∈ collapse back, other.place ≠ declaration.place := by
      intro silent
      exact silent _ spoken rfl
    have decided : declaration ∈ collapse back ↔ values = declaration.values := by
      simp [mem_collapse, standing]
    rw [decided]
    simp only [loud, and_false, or_false]
    simp

/-- Where a place is first written among the rules. -/
def firstWritten (place : RulePlace) (rules : List FlatRule) : Nat :=
  rules.findIdx fun rule => rule.place = place

theorem firstWritten_lt {place : RulePlace} {rules : List FlatRule} :
    firstWritten place rules < rules.length ↔ ∃ rule ∈ rules, rule.place = place := by
  simp [firstWritten, List.findIdx_lt_length]

theorem mem_places_collapse {place : RulePlace} {rules : List FlatRule} :
    place ∈ (collapse rules).map AtomicDeclaration.place ↔ ∃ rule ∈ rules, rule.place = place := by
  constructor
  · intro member
    obtain ⟨declaration, inside, rfl⟩ := List.mem_map.mp member
    exact exists_rule_of_mem_collapse inside
  · rintro ⟨rule, member, rfl⟩
    have written : rules.filter (fun other => other.place = rule.place) ≠ [] :=
      List.ne_nil_of_mem (List.mem_filter.mpr ⟨member, decide_eq_true rfl⟩)
    cases filtered : rules.filter fun other => other.place = rule.place with
    | nil => exact absurd filtered written
    | cons head rest =>
      obtain ⟨⟨values, origin⟩, standing⟩ := writeAll_some rest ([head.value], head.origin)
      have last : latest rule.place rules = some (values, origin) := by
        rw [latest, filtered, writeAll_cons, write, standing]
      exact List.mem_map.mpr
        ⟨⟨rule.atRules, rule.selector, rule.property, values⟩, mem_collapse.mpr ⟨origin, last⟩, rfl⟩

theorem places_collapse_append (rules : List FlatRule) (rule : FlatRule) :
    (collapse (rules ++ [rule])).map AtomicDeclaration.place =
      if rule.place ∈ (collapse rules).map AtomicDeclaration.place then
        (collapse rules).map AtomicDeclaration.place
      else (collapse rules).map AtomicDeclaration.place ++ [rule.place] := by
  simp only [collapse, List.foldl_append, List.foldl_cons, List.foldl_nil, List.map_map]
  exact places_takeUp rule _

theorem firstWritten_append (place : RulePlace) (rules : List FlatRule) (rule : FlatRule) :
    firstWritten place (rules ++ [rule]) =
      if firstWritten place rules < rules.length then firstWritten place rules
      else firstWritten place [rule] + rules.length := List.findIdx_append

theorem firstWritten_append_of_mem {place : RulePlace} {rules : List FlatRule}
    (member : place ∈ (collapse rules).map AtomicDeclaration.place) (rule : FlatRule) :
    firstWritten place (rules ++ [rule]) = firstWritten place rules := by
  rw [firstWritten_append, if_pos (firstWritten_lt.mpr (mem_places_collapse.mp member))]

/-- Declarations stand in the order in which their places are first written. -/
theorem ordered_collapse (rules : List FlatRule) :
    ((collapse rules).map AtomicDeclaration.place).Pairwise fun first second =>
      firstWritten first rules < firstWritten second rules := by
  induction rules using List.reverseRecOn with
  | nil => exact .nil
  | append_singleton rules rule ih =>
    have kept : ((collapse rules).map AtomicDeclaration.place).Pairwise fun first second =>
        firstWritten first (rules ++ [rule]) < firstWritten second (rules ++ [rule]) := by
      apply ih.imp_of_mem
      intro first second left right before
      rwa [firstWritten_append_of_mem left, firstWritten_append_of_mem right]
    rw [places_collapse_append]
    split
    · exact kept
    · next fresh =>
      refine List.pairwise_append.mpr ⟨kept, List.pairwise_singleton _ _, ?_⟩
      intro place member other last
      rw [List.mem_singleton.mp last]
      have new : ¬ firstWritten rule.place rules < rules.length :=
        mt firstWritten_lt.mp (mt mem_places_collapse.mpr fresh)
      have old := firstWritten_lt.mpr (mem_places_collapse.mp member)
      rw [firstWritten_append_of_mem member, firstWritten_append, if_neg new]
      exact Nat.lt_of_lt_of_le old (Nat.le_add_left _ _)

theorem pair_sublist_collapse {rules : List FlatRule} {first second : AtomicDeclaration}
    (left : first ∈ collapse rules) (right : second ∈ collapse rules) (different : first ≠ second) :
    [first, second].Sublist (collapse rules) ↔
      firstWritten first.place rules < firstWritten second.place rules := by
  have ordered {first second : AtomicDeclaration}
      (placed : [first, second].Sublist (collapse rules)) :
      firstWritten first.place rules < firstWritten second.place rules :=
    List.pairwise_iff_forall_sublist.mp (ordered_collapse rules)
      (placed.map AtomicDeclaration.place)
  constructor
  · exact ordered
  · intro before
    rcases pair_sublist_or left right different with placed | swapped
    · exact placed
    · exact absurd (ordered swapped) (Nat.lt_asymm before)

/-- A place is first written before another one, if nothing wrote the other up to the entry that the
values of the first come from. -/
theorem firstWritten_lt_of_latest {rules : List FlatRule} {first second : RulePlace}
    {values : List String} {origin : Nat}
    (rising : rules.Pairwise fun first second => first.origin ≤ second.origin)
    (supplied : latest first rules = some (values, origin))
    (written : ∃ rule ∈ rules, rule.place = second)
    (later : ∀ rule ∈ rules, rule.place = second → origin < rule.origin) :
    firstWritten first rules < firstWritten second rules := by
  obtain ⟨supplier, member, here, rfl⟩ := origin_of_latest supplied
  obtain ⟨index, within, rfl⟩ := List.mem_iff_getElem.mp member
  have first_at : firstWritten first rules ≤ index := by
    by_contra beyond
    have absent := List.not_of_lt_findIdx (Nat.lt_of_not_le beyond)
    exact of_decide_eq_false absent here
  have inside := firstWritten_lt.mpr written
  have there : rules[firstWritten second rules].place = second :=
    of_decide_eq_true (List.findIdx_getElem (w := inside))
  have after := later _ (List.getElem_mem inside) there
  by_contra behind
  have order : firstWritten second rules ≤ index := by omega
  rcases Nat.lt_or_eq_of_le order with before | same
  · exact absurd (List.pairwise_iff_getElem.mp rising _ _ inside within before) (by omega)
  · simp only [same] at after
    omega

end AtomicCss
