import AtomicCss.Proofs.Rule.Walks
import Mathlib.Data.List.DropRight

/-!
The values that a place is declared with.

Collapsing declares each place once, in the order of their first rules, with the last rules there
that share an origin, whatever rules of other places stand between them. The rules of a style object
have an origin for each entry, so these are the values of the entry that wrote the place last.
-/

namespace AtomicCss

namespace Collapse

/-- The longest part at the end whose rules come from one entry. -/
def lastStretch (rules : List FlatRule) : List FlatRule :=
  rules.rtakeWhile fun rule => rules.getLast?.map (·.origin) = some rule.origin

/-- The declaration of a place. -/
def declared (rules : List FlatRule) (place : RulePlace) : AtomicDeclaration :=
  ⟨place.1, place.2.1, place.2.2,
    (lastStretch (rules.filter fun rule => rule.place = place)).map (·.value)⟩

theorem lastStretch_concat (rules : List FlatRule) (rule : FlatRule) :
    lastStretch (rules ++ [rule]) =
      rules.rtakeWhile (fun earlier => rule.origin = earlier.origin) ++ [rule] := by
  simp [lastStretch]

/-- The stretch that goes on with a rule: the last one if it has the same origin, and else none. -/
theorem rtakeWhile_origin (rules : List FlatRule) (last : FlatRule) (origin : Nat) :
    (rules ++ [last]).rtakeWhile (fun earlier => origin = earlier.origin) =
      if last.origin = origin then lastStretch (rules ++ [last]) else [] := by
  rw [List.rtakeWhile_concat]
  by_cases same : last.origin = origin
  · simp [same, lastStretch_concat]
  · simp [same, Ne.symm same]

/-- What is written at a place: the values of the last stretch. -/
theorem writeAll_eq (rules : List FlatRule) :
    writeAll rules none =
      rules.getLast?.map fun last => ((lastStretch rules).map (·.value), last.origin) := by
  induction rules using List.reverseRecOn with
  | nil => rfl
  | append_singleton rules rule ih =>
    have step : writeAll (rules ++ [rule]) none = write rule (writeAll rules none) :=
      List.foldl_append
    rw [step, ih, List.getLast?_concat, lastStretch_concat]
    rcases rules.eq_nil_or_concat' with rfl | ⟨earlier, last, rfl⟩
    · rfl
    · rw [rtakeWhile_origin, List.getLast?_concat]
      by_cases same : last.origin = rule.origin <;> simp [write, same]

theorem lastStretch_of_origin {rules : List FlatRule} {origin : Nat}
    (same : ∀ rule ∈ rules, rule.origin = origin) : lastStretch rules = rules := by
  apply List.rtakeWhile_eq_self_iff.mpr
  intro rule member
  have filled : rules ≠ [] := List.ne_nil_of_mem member
  simp [List.getLast?_eq_some_getLast filled, same rule member, same _ (List.getLast_mem filled)]

end Collapse

open Collapse

theorem places_collapse (rules : List FlatRule) :
    (collapse rules).map AtomicDeclaration.place = (rules.map FlatRule.place).eraseDups := by
  induction rules using List.reverseRecOn with
  | nil => rfl
  | append_singleton rules rule ih =>
    rw [places_collapse_append, ih, List.map_append, List.map_singleton, eraseDups_concat]
    simp only [List.mem_eraseDups]

theorem eq_declared {rules : List FlatRule} {declaration : AtomicDeclaration}
    (member : declaration ∈ collapse rules) : declaration = declared rules declaration.place := by
  obtain ⟨origin, standing⟩ := mem_collapse.mp member
  rw [latest, writeAll_eq] at standing
  obtain ⟨last, -, found⟩ := Option.map_eq_some_iff.mp standing
  obtain ⟨values, -⟩ := Prod.mk.inj found
  rw [AtomicDeclaration.eq_iff]
  exact ⟨rfl, values.symm⟩

theorem collapse_eq (rules : List FlatRule) :
    collapse rules = ((rules.map FlatRule.place).eraseDups).map (declared rules) := by
  have own : ∀ declaration ∈ collapse rules,
      (declared rules ∘ AtomicDeclaration.place) declaration = id declaration :=
    fun declaration member => (eq_declared member).symm
  rw [← places_collapse, List.map_map, List.map_congr_left own, List.map_id]

theorem latest_eq_none {rules : List FlatRule} {place : RulePlace}
    (elsewhere : ∀ rule ∈ rules, rule.place ≠ place) : latest place rules = none := by
  have nothing : rules.filter (fun rule => rule.place = place) = [] :=
    List.filter_eq_nil_iff.mpr fun rule member => by simpa using elsewhere rule member
  rw [latest, nothing]
  rfl

namespace Flatten

variable {vocabulary : Vocabulary} {trace : Trace} {place : RulePlace} {start : Nat}

/-- An entry with values leaves them at its place. -/
theorem Written.latest {writing : Writing} {origin : Nat} {rules : List FlatRule}
    (written : Written vocabulary writing origin rules) (filled : rules ≠ []) :
    latest (writing.place vocabulary) rules = some (rules.map (·.value), origin) := by
  have all : rules.filter (fun rule => rule.place = writing.place vocabulary) = rules :=
    List.filter_eq_self.mpr fun rule member => by simpa using (written.origin rule member).1
  have stretch : lastStretch rules = rules :=
    lastStretch_of_origin fun rule member => (written.origin rule member).2
  rw [Collapse.latest, all, writeAll_eq, stretch, List.getLast?_eq_some_getLast filled,
    Option.map_some, (written.origin _ (List.getLast_mem filled)).2]

section Entries

variable (written : ∀ own ∈ trace.zipIdx start, Written vocabulary own.1.1 own.2 own.1.2)

include written

/-- Entries that follow one another have origins that do. -/
theorem origin_of_zipIdx :
    ∀ rule ∈ trace.flatMap (·.2), start ≤ rule.origin ∧ rule.origin < start + trace.length := by
  induction trace generalizing start with
  | nil => simp
  | cons own rest ih =>
    rw [List.zipIdx_cons, List.forall_mem_cons] at written
    intro rule member
    rw [List.flatMap_cons] at member
    rw [List.length_cons]
    rcases List.mem_append.mp member with here | later
    · have same : rule.origin = start := (written.1.origin rule here).2
      omega
    · have bounds := ih written.2 rule later
      omega

theorem exists_entry_of_mem {rule : FlatRule} (member : rule ∈ trace.flatMap (·.2)) :
    ∃ own ∈ trace, rule ∈ own.2 ∧ own.1.place vocabulary = rule.place := by
  obtain ⟨own, inside, here⟩ := List.mem_flatMap.mp member
  obtain ⟨origin, own_written⟩ := written_of_mem written inside
  exact ⟨own, inside, here, (own_written.origin rule here).1.symm⟩

/-- Of the entries that left rules at a place one is the last. -/
theorem exists_last_entry (left : ∃ rule ∈ trace.flatMap (·.2), rule.place = place) :
    ∃ front writing rules back, trace = front ++ (writing, rules) :: back ∧
      writing.place vocabulary = place ∧ rules ≠ [] ∧
      ∀ other ∈ back, other.1.place vocabulary = place → other.2 = [] := by
  have some_entry : ∃ own ∈ trace, own.1.place vocabulary = place ∧ own.2 ≠ [] := by
    obtain ⟨rule, member, rfl⟩ := left
    obtain ⟨own, inside, here, same⟩ := exists_entry_of_mem written member
    exact ⟨own, inside, same, List.ne_nil_of_mem here⟩
  obtain ⟨front, ⟨writing, rules⟩, back, split, ⟨here, filled⟩, last⟩ := exists_last some_entry
  refine ⟨front, writing, rules, back, split, here, filled, ?_⟩
  intro other inside same
  by_contra not_empty
  exact last other inside ⟨same, not_empty⟩

end Entries

/-- The entry that left rules at a place last decides there. -/
theorem latest_of_last {front back : Trace} {writing : Writing} {rules : List FlatRule}
    (written : ∀ own ∈ (front ++ (writing, rules) :: back).zipIdx,
      Written vocabulary own.1.1 own.2 own.1.2)
    (here : writing.place vocabulary = place) (filled : rules ≠ [])
    (silent : ∀ other ∈ back, other.1.place vocabulary = place → other.2 = []) :
    ∃ origin, latest place ((front ++ (writing, rules) :: back).flatMap (·.2)) =
      some (rules.map (·.value), origin) := by
  rw [List.zipIdx_append, List.zipIdx_cons, List.forall_mem_append, List.forall_mem_cons] at written
  obtain ⟨before, own, after⟩ := written
  have elsewhere : ∀ rule ∈ back.flatMap (·.2), rule.place ≠ place := by
    intro rule member same
    obtain ⟨other, inside, there, placed⟩ := exists_entry_of_mem after member
    rw [silent other inside (placed.trans same)] at there
    cases there
  have own : Written vocabulary writing (0 + front.length) rules := own
  have before := origin_of_zipIdx before
  have after := origin_of_zipIdx after
  rw [List.flatMap_append, List.flatMap_cons, latest_append, latest_append,
    latest_eq_none elsewhere, Option.none_or, ← here, own.latest filled]
  · exact ⟨_, rfl⟩
  · intro first inside second member
    have at_own := (own.origin first inside).2
    have later := after second member
    omega
  · intro first inside second member
    have earlier := before first inside
    rcases List.mem_append.mp member with there | there
    · have at_own := (own.origin second there).2
      omega
    · have later := after second there
      omega

/-- A place is declared with the values of the entry that wrote it last. -/
theorem exists_last_writing {mode : FlattenMode} {node : StyleNode} {rules : List FlatRule}
    (flat : flatten vocabulary mode node = .ok rules) {declaration : AtomicDeclaration}
    (member : declaration ∈ collapse rules) :
    ∃ front writing back, writings vocabulary mode node = front ++ writing :: back ∧
      writing.place vocabulary = declaration.place ∧
      writing.values vocabulary = .ok declaration.values ∧
      ∀ other ∈ back, other.place vocabulary = declaration.place →
      other.values vocabulary = .ok [] := by
  obtain ⟨trace, listed, rfl, written, -⟩ := flatten_walks flat
  obtain ⟨front, writing, own, back, rfl, here, filled, silent⟩ :=
    exists_last_entry written (exists_rule_of_mem_collapse member)
  have values : declaration.values = own.map (·.value) := by
    obtain ⟨origin, standing⟩ := latest_of_last written here filled silent
    obtain ⟨other, found⟩ := mem_collapse.mp member
    rw [found] at standing
    exact (Prod.mk.inj (Option.some.inj standing)).1
  have read {entry : Writing × List FlatRule} (inside : entry ∈ front ++ (writing, own) :: back) :
      entry.1.values vocabulary = .ok (entry.2.map (·.value)) := by
    obtain ⟨origin, entry_written⟩ := written_of_mem written inside
    exact entry_written.values
  refine ⟨front.map (·.1), writing, back.map (·.1), ?_, here, ?_, ?_⟩
  · rw [← listed, List.map_append, List.map_cons]
  · rw [values]
    exact @read (writing, own) (by simp)
  · intro entry inside same
    obtain ⟨other, member, rfl⟩ := List.mem_map.mp inside
    rw [@read other (by simp [member]), silent other member same]
    rfl

end Flatten

/-- Collapsing declares each place once, in the order of their first rules, with the values of the
last rules there that share an origin. Of a style object these are the values of the entry that
wrote the place last. -/
theorem collapse_last_stretch :
    (∀ rules : List FlatRule,
      collapse rules = ((rules.map FlatRule.place).eraseDups).map fun place =>
        ⟨place.1, place.2.1, place.2.2,
          (lastStretch (rules.filter fun rule => rule.place = place)).map (·.value)⟩) ∧
    ∀ (vocabulary : Vocabulary) (mode : FlattenMode) (node : StyleNode) (rules : List FlatRule),
      flatten vocabulary mode node = .ok rules → ∀ declaration ∈ collapse rules,
        ∃ front writing back, Flatten.writings vocabulary mode node = front ++ writing :: back ∧
          writing.place vocabulary = declaration.place ∧
          writing.values vocabulary = .ok declaration.values ∧
          ∀ other ∈ back, other.place vocabulary = declaration.place →
          other.values vocabulary = .ok [] :=
  ⟨collapse_eq, fun _ _ _ _ flat _ member => Flatten.exists_last_writing flat member⟩

/-- An entry and a utility write the fallbacks of one property, with another property between
them. -/
theorem collapse_last_stretch_fallbacks :
    let vocabulary : Vocabulary := ⟨⟨⟨"", "", ":root", .empty, []⟩, .empty, ""⟩,
      .ofList [("hue", .template [("color", .list [.text "--value()", .text "lime"])])], []⟩
    let node : StyleNode := [("color", .list [.text "red", .text "blue"]), ("top", .text "0"),
      ("hue", .text "green")]
    let rules : List FlatRule := [⟨[], "&", "color", "red", 0, 0⟩, ⟨[], "&", "color", "blue", 0, 0⟩,
      ⟨[], "&", "top", "0", 1, 0⟩, ⟨[], "&", "color", "green", 2, 0⟩,
        ⟨[], "&", "color", "lime", 2, 0⟩]
    let declaration : AtomicDeclaration := ⟨[], "&", "color", ["green", "lime"]⟩
    flatten vocabulary .scoped node = .ok rules ∧
      collapse rules = [declaration, ⟨[], "&", "top", ["0"]⟩] ∧
      ∃ front writing back, Flatten.writings vocabulary .scoped node = front ++ writing :: back ∧
        writing.place vocabulary = declaration.place ∧
        writing.values vocabulary = .ok declaration.values ∧
        ∀ other ∈ back, other.place vocabulary = declaration.place →
        other.values vocabulary = .ok [] := by
  intro vocabulary node rules declaration
  have flat : flatten vocabulary .scoped node = .ok rules := by decide +kernel
  have collapsed : collapse rules = [declaration, ⟨[], "&", "top", ["0"]⟩] := by decide +kernel
  refine ⟨flat, collapsed, ?_⟩
  apply collapse_last_stretch.2 vocabulary .scoped node rules flat declaration
  rw [collapsed]
  exact List.mem_cons_self

end AtomicCss
