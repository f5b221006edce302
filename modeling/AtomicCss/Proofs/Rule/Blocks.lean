import AtomicCss.Proofs.Grouping
import AtomicCss.Proofs.Rule.Spelling
import AtomicCss.Proofs.Rule.Walks

/-!
The texts of global styles and the blocks that they come from.

Each flat rule becomes one declaration or statement of one text. Declarations share a text exactly
if they were written in one block under one selector and at-rules, an expansion counting to the
block around its utility; whatever stands between them, they keep their order. So repeated blocks
and blocks side by side are never joined.
-/

namespace AtomicCss

namespace GlobalRule

/-- What declarations of one text have in common. Statements share no text. -/
def key? (rule : FlatRule) : Option (Nat × List String × String) :=
  if isStatement rule then none else some (rule.block, rule.atRules, rule.selector)

/-- The draft of rules that share a text: one statement, or declarations. -/
def Draft.ofRules : List FlatRule → Draft
  | [] => .statement ""
  | first :: rest =>
    if isStatement first then .statement (first.property ++ " " ++ first.value ++ ";")
    else .rule first.block first.atRules first.selector ((first :: rest).map declaration)

theorem takeUp_ofRules {flat : FlatRule} (declares : isStatement flat = false)
    (parts : List (List FlatRule)) :
    takeUp flat (parts.map Draft.ofRules) = (Grouping.join key? flat parts).map Draft.ofRules := by
  have known : key? flat = some (flat.block, flat.atRules, flat.selector) := by
    simp [key?, declares]
  induction parts with
  | nil => simp [takeUp, Grouping.join, Draft.ofRules, declares]
  | cons part rest ih =>
    rw [List.map_cons, Grouping.join]
    cases part with
    | nil =>
      have apart : ¬ Grouping.Takes key? [] flat := by simp [Grouping.Takes, known]
      rw [if_neg apart, List.map_cons, ← ih]
      rfl
    | cons rule more =>
      cases stated : isStatement rule with
      | true =>
        have apart : ¬ Grouping.Takes key? (rule :: more) flat := by
          simp [Grouping.Takes, key?, stated, declares]
        rw [if_neg apart, List.map_cons, ← ih]
        simp [Draft.ofRules, stated, takeUp]
      | false =>
        have takes : Grouping.Takes key? (rule :: more) flat ↔
            rule.block = flat.block ∧ rule.atRules = flat.atRules ∧
              rule.selector = flat.selector := by
          simp [Grouping.Takes, key?, stated, declares]
        by_cases same : rule.block = flat.block ∧ rule.atRules = flat.atRules ∧
          rule.selector = flat.selector
        · rw [if_pos (takes.mpr same)]
          simp [Draft.ofRules, stated, takeUp, same]
        · rw [if_neg (mt takes.mp same), List.map_cons, ← ih]
          simp [Draft.ofRules, stated, takeUp, same]

theorem add_ofRules (flat : FlatRule) (parts : List (List FlatRule)) :
    add (parts.map Draft.ofRules) flat = (Grouping.join key? flat parts).map Draft.ofRules := by
  cases stated : isStatement flat with
  | false =>
    rw [← takeUp_ofRules stated]
    simp [add, stated]
  | true =>
    have alone : Grouping.join key? flat parts = parts ++ [[flat]] := by
      rcases Grouping.join_cases key? flat parts with ⟨front, part, back, -, takes, -⟩ | ⟨-, joined⟩
      · simp [Grouping.Takes, key?, stated] at takes
      · exact joined
    simp [add, stated, alone, Draft.ofRules]

/-- The text of rules that were gathered by their key holds them. -/
theorem holds_finish {rules part : List FlatRule} (member : part ∈ Grouping.gather key? rules) :
    Holds part (Draft.ofRules part).finish := by
  have grouped := Grouping.parts_gather key? rules
  obtain ⟨first, rest, rfl⟩ := List.exists_cons_of_ne_nil (grouped.filled part member)
  cases stated : isStatement first with
  | true =>
    have alone : first :: rest = [first] :=
      Grouping.eq_singleton_of_gather member List.mem_cons_self (by simp [key?, stated])
    rw [alone, Draft.ofRules, if_pos stated]
    exact .statement (isStatement_iff.mp stated) (by simp)
  | false =>
    have shared : ∀ rule ∈ first :: rest,
        ¬ States rule ∧ rule.atRules = first.atRules ∧ rule.selector = first.selector := by
      intro rule inside
      have keyed : key? rule = some (first.block, first.atRules, first.selector) := by
        rcases grouped.within _ member rule inside first List.mem_cons_self with rfl | ⟨-, same⟩
        · simp [key?, stated]
        · simpa [key?, stated] using same
      rw [key?] at keyed
      split at keyed
      · cases keyed
      · next plain =>
        simp only [Option.some.injEq, Prod.mk.injEq] at keyed
        exact ⟨mt isStatement_iff.mpr plain, keyed.2⟩
    rw [Draft.ofRules, if_neg (by simp [stated])]
    refine .declarations (List.cons_ne_nil _ _) shared ?_
    have body : (";".intercalate ((first :: rest).map declaration)).toList =
        Spelling.declarations ((first :: rest).map fun rule => (rule.property, rule.value)) := by
      rw [← Spelling.toList_declarations, List.map_map]
      rfl
    rw [AtRule.toList_wrap]
    by_cases bare : first.selector = ""
    · rw [if_pos bare, if_pos (by simp [bare]), body]
    · rw [if_neg bare, if_neg (by simp [bare]), AtRule.toList_block, body, Spelling.rule]

end GlobalRule

/-- The texts are those of the rules gathered by what declarations of one text have in common. -/
theorem globalRules_eq_gather (rules : List FlatRule) :
    globalRules rules =
      (Grouping.gather GlobalRule.key? rules).map fun part =>
        (GlobalRule.Draft.ofRules part).finish := by
  have drafts : rules.foldl GlobalRule.add [] =
      (Grouping.gather GlobalRule.key? rules).map GlobalRule.Draft.ofRules := by
    induction rules using List.reverseRecOn with
    | nil => rfl
    | append_singleton rules rule ih =>
      rw [Grouping.gather_concat, ← GlobalRule.add_ofRules, ← ih]
      exact List.foldl_append
  rw [globalRules, drafts, List.map_map]
  rfl

namespace Flatten

/-- The values of an entry, each with the entry. -/
def Writing.sources (vocabulary : Vocabulary) (writing : Writing) :
    Except Fault (List (Writing × String)) :=
  (writing.values vocabulary).map fun values => values.map fun value => (writing, value)

/-- The values that a style object writes, each with its entry, in order. -/
def sources (vocabulary : Vocabulary) (mode : FlattenMode) (node : StyleNode) :
    Except Fault (List (Writing × String)) := do
  return (← (writings vocabulary mode node).mapM (Writing.sources vocabulary)).flatten

section Lines

variable {vocabulary : Vocabulary} {trace : Trace}

/-- The rules of a trace, each with its entry. -/
def lines (trace : Trace) : List (Writing × FlatRule) :=
  trace.flatMap fun (writing, rules) => rules.map fun rule => (writing, rule)

theorem map_snd_lines (trace : Trace) : (lines trace).map (·.2) = trace.flatMap (·.2) := by
  simp [lines, List.map_flatMap, Function.comp_def]

theorem mem_lines {line : Writing × FlatRule} :
    line ∈ lines trace ↔ ∃ own ∈ trace, own.1 = line.1 ∧ line.2 ∈ own.2 := by
  simp only [lines, List.mem_flatMap, List.mem_map]
  constructor
  · rintro ⟨own, member, rule, inside, rfl⟩
    exact ⟨own, member, rfl, inside⟩
  · rintro ⟨own, member, same, inside⟩
    exact ⟨own, member, line.2, inside, Prod.ext same rfl⟩

/-- Each rule that a style object is flattened to comes from a value of an entry, in order.
Declarations have the same block number exactly if their entries stand in one block. -/
theorem flatten_lines {mode : FlattenMode} {node : StyleNode} {rules : List FlatRule}
    (flat : flatten vocabulary mode node = .ok rules) :
    ∃ lines : List (Writing × FlatRule), rules = lines.map (·.2) ∧
      sources vocabulary mode node = .ok (lines.map fun line => (line.1, line.2.value)) ∧
      (∀ line ∈ lines, Shows vocabulary line.1 line.2.value line.2) ∧
      ∀ first ∈ lines, ∀ second ∈ lines, first.1.isStatement vocabulary = false →
        second.1.isStatement vocabulary = false →
        (first.2.block = second.2.block ↔ first.1.site.block = second.1.site.block) := by
  obtain ⟨trace, listed, rfl, written, apart⟩ := flatten_walks flat
  have each : ∀ own ∈ trace, ∃ origin, Written vocabulary own.1 origin own.2 :=
    fun own inside => written_of_mem written inside
  have marked {line : Writing × FlatRule} (member : line ∈ lines trace)
      (plain : line.1.isStatement vocabulary = false) :
      (line.2.block, line.1.site.block) ∈ marks vocabulary trace := by
    obtain ⟨own, inside, same, here⟩ := mem_lines.mp member
    refine List.mem_flatMap.mpr ⟨own, inside, ?_⟩
    simp only [same, plain, Bool.false_eq_true, if_false]
    exact List.mem_map.mpr ⟨line.2, here, rfl⟩
  refine ⟨lines trace, (map_snd_lines trace).symm, ?_, ?_, ?_⟩
  · have read : (writings vocabulary mode node).mapM (Writing.sources vocabulary) =
        .ok (trace.map fun own => own.2.map fun rule => (own.1, rule.value)) := by
      rw [← listed]
      apply mapM_map_eq_ok
      intro own inside
      obtain ⟨origin, own_written⟩ := each own inside
      rw [Writing.sources, own_written.values]
      simp [Except.map]
    rw [sources, read]
    simp [lines, List.flatMap_def, Function.comp_def, bind, Except.bind, pure, Except.pure]
  · intro line member
    obtain ⟨own, inside, same, here⟩ := mem_lines.mp member
    obtain ⟨origin, own_written⟩ := each own inside
    exact same ▸ own_written.shows here
  · intro first left second right plain_first plain_second
    exact apart _ (marked left plain_first) _ (marked right plain_second)

end Lines

/-- Declarations of two entries go to one text: they stand in one block, under one selector and
at-rules. -/
structure Writing.Together (vocabulary : Vocabulary) (first second : Writing) : Prop where
  declares : first.isStatement vocabulary = false
  also : second.isStatement vocabulary = false
  block : first.site.block = second.site.block
  selector : first.selector = second.selector
  atRules : first.site.atRules = second.site.atRules

theorem Shows.key? {vocabulary : Vocabulary} {writing : Writing} {value : String} {rule : FlatRule}
    (shows : Shows vocabulary writing value rule) :
    GlobalRule.key? rule = if writing.isStatement vocabulary then none
      else some (rule.block, writing.site.atRules, writing.selector) := by
  have place := shows.place
  rw [GlobalRule.key?, shows.statement]
  rw [FlatRule.place, Writing.place, Prod.mk.injEq, Prod.mk.injEq] at place
  rw [place.1, place.2.1]

/-- Rules have the same key exactly if their entries go together. -/
theorem key?_eq_iff {vocabulary : Vocabulary} {first second : Writing × FlatRule}
    (left : Shows vocabulary first.1 first.2.value first.2)
    (right : Shows vocabulary second.1 second.2.value second.2)
    (apart : first.1.isStatement vocabulary = false → second.1.isStatement vocabulary = false →
      (first.2.block = second.2.block ↔ first.1.site.block = second.1.site.block)) :
    ((GlobalRule.key? first.2).isSome = true ∧ GlobalRule.key? first.2 = GlobalRule.key? second.2) ↔
      first.1.Together vocabulary second.1 := by
  rw [left.key?, right.key?]
  cases plain : first.1.isStatement vocabulary with
  | true =>
    constructor
    · rintro ⟨known, -⟩
      cases known
    · intro together
      exact absurd together.declares (by simp [plain])
  | false =>
    cases also : second.1.isStatement vocabulary with
    | true =>
      constructor
      · rintro ⟨-, same⟩
        cases same
      · intro together
        exact absurd together.also (by simp [also])
    | false =>
      have blocks := apart plain also
      simp only [Bool.false_eq_true, if_false, Option.isSome_some, true_and, Option.some.injEq,
        Prod.mk.injEq]
      constructor
      · rintro ⟨block, atRules, selector⟩
        exact ⟨plain, also, blocks.mp block, selector, atRules⟩
      · intro together
        exact ⟨blocks.mpr together.block, together.atRules, together.selector⟩

end Flatten

open Flatten

/-- Global texts lose and mix nothing: each flat rule is made of a value of an entry and becomes a
statement or a declaration of one text. The texts are ordered by their first flat rules, and each
holds its own in order, under their selector and at-rules. Two flat rules share a text exactly if
they are declarations that were written in one block, under one selector and at-rules. -/
theorem globalRules_by_block {vocabulary : Vocabulary} {mode : FlattenMode} {node : StyleNode}
    {rules : List FlatRule} (flat : flatten vocabulary mode node = .ok rules) :
    ∃ sources, Flatten.sources vocabulary mode node = .ok sources ∧
      List.Forall₂ (fun source rule => Shows vocabulary source.1 source.2 rule) sources rules ∧
      ∃ parts : List (List Nat),
        List.Forall₂ (fun part text => GlobalRule.Holds (part.filterMap (rules[·]?)) text) parts
            (globalRules rules) ∧
          parts.flatten.Perm (List.range rules.length) ∧
          (∀ part ∈ parts, part ≠ [] ∧ part.Pairwise (· < ·)) ∧
          (parts.filterMap List.head?).Pairwise (· < ·) ∧
          ∀ i j first second, sources[i]? = some first → sources[j]? = some second →
            ((∃ part ∈ parts, i ∈ part ∧ j ∈ part) ↔
              i = j ∨ first.1.Together vocabulary second.1) := by
  obtain ⟨lines, rfl, found, shows, apart⟩ := flatten_lines flat
  refine ⟨_, found, ?_, Grouping.positions GlobalRule.key? (lines.map (·.2)), ?_,
    Grouping.positions_perm _ _, Grouping.positions_ordered _ _, Grouping.positions_heads _ _, ?_⟩
  · rw [List.forall₂_map_left_iff, List.forall₂_map_right_iff, List.forall₂_same]
    exact shows
  · rw [← List.forall₂_map_left_iff (R := GlobalRule.Holds), Grouping.positions_items,
      globalRules_eq_gather, List.forall₂_map_right_iff, List.forall₂_same]
    exact fun part => GlobalRule.holds_finish
  · intro i j first second left right
    rw [List.getElem?_map, Option.map_eq_some_iff] at left right
    obtain ⟨line, at_i, rfl⟩ := left
    obtain ⟨other, at_j, rfl⟩ := right
    have line_member := List.mem_of_getElem? at_i
    have other_member := List.mem_of_getElem? at_j
    have rule_at_i : (lines.map (·.2))[i]? = some line.2 := by simp [at_i]
    have rule_at_j : (lines.map (·.2))[j]? = some other.2 := by simp [at_j]
    rw [Grouping.same_position_iff GlobalRule.key? rule_at_i rule_at_j,
      key?_eq_iff (shows line line_member) (shows other other_member)
        (apart line line_member other other_member)]

/-- Repeated blocks of a list, a statement, a block that goes on with a utility behind a block in an
at-rule, and descriptors. -/
theorem globalRules_by_block_interrupted :
    let vocabulary : Vocabulary := ⟨⟨⟨"", "", ":root", .empty, []⟩, .empty, ""⟩,
      .ofList [("box", .template [("width", .text "--value()")])], []⟩
    let node : StyleNode := [
      ("a", .list [.node [("color", .text "red")], .node [("color", .text "blue")]]),
      ("@import", .text "url(x)"),
      ("b", .node [("top", .text "0"), ("@media print", .node [("top", .text "1px")]),
        ("box", .text "2px")]),
      ("@font-face", .node [("src", .text "x"), ("family", .text "y")])]
    let rules : List FlatRule := [⟨[], "a", "color", "red", 0, 1⟩, ⟨[], "a", "color", "blue", 1, 2⟩,
      ⟨[], "", "@import", "url(x)", 2, 3⟩, ⟨[], "b", "top", "0", 3, 4⟩,
      ⟨["@media print"], "b", "top", "1px", 4, 5⟩, ⟨[], "b", "width", "2px", 5, 4⟩,
      ⟨["@font-face"], "", "src", "x", 6, 6⟩, ⟨["@font-face"], "", "family", "y", 7, 6⟩]
    flatten vocabulary .global node = .ok rules ∧
      globalRules rules = [(.global, "a\x7bcolor:red\x7d"), (.global, "a\x7bcolor:blue\x7d"),
        (.imports, "@import url(x);"), (.global, "b\x7btop:0;width:2px\x7d"),
        (.global, "@media print\x7bb\x7btop:1px\x7d\x7d"),
        (.global, "@font-face\x7bsrc:x;family:y\x7d")] ∧
      ∃ sources, Flatten.sources vocabulary .global node = .ok sources ∧
        List.Forall₂ (fun source rule => Shows vocabulary source.1 source.2 rule) sources rules ∧
        ∃ parts : List (List Nat),
          List.Forall₂ (fun part text => GlobalRule.Holds (part.filterMap (rules[·]?)) text) parts
              (globalRules rules) ∧
            parts.flatten.Perm (List.range 8) ∧
            ∀ i j first second, sources[i]? = some first → sources[j]? = some second →
              ((∃ part ∈ parts, i ∈ part ∧ j ∈ part) ↔
                i = j ∨ first.1.Together vocabulary second.1) := by
  intro vocabulary node rules
  have flat : flatten vocabulary .global node = .ok rules := by decide +kernel
  obtain ⟨sources, found, shows, parts, held, perm, -, -, shared⟩ := globalRules_by_block flat
  exact ⟨flat, by decide +kernel, sources, found, shows, parts, held, perm, shared⟩

end AtomicCss
