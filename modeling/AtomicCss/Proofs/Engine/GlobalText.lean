import AtomicCss.Proofs.Engine.Groups
import AtomicCss.Proofs.Rule.Blocks

/-!
The text that an applied global style leaves.

Applying a style inserts its texts one after another into a sheet that takes each hash once, so that
applying it again adds nothing. The same holds within one style: of texts that are equal only the
first comes into the sheet, although a repeated block is a text of its own and may decide the
cascade.
-/

namespace AtomicCss

theorem AtRule.block_ne_empty (header body : String) : AtRule.block header body ≠ "" := by
  intro empty
  have length := congrArg String.length empty
  simp [block] at length

namespace GlobalRule

theorem body_ne_empty (rule : FlatRule) (rest : List FlatRule) :
    ";".intercalate ((rule :: rest).map declaration) ≠ "" := by
  intro empty
  have length := congrArg String.length empty
  cases rest with
  | nil => simp [declaration] at length
  | cons other rest => simp [declaration] at length

/-- What rules are written as is never nothing. -/
theorem finish_ofRules_ne_empty {rules : List FlatRule} (filled : rules ≠ []) :
    (Draft.ofRules rules).finish.2 ≠ "" := by
  cases rules with
  | nil => exact absurd rfl filled
  | cons rule rest =>
    rw [Draft.ofRules]
    split
    · intro empty
      have length := congrArg String.length empty
      simp [Draft.finish] at length
    · cases atRules : rule.atRules with
      | cons atRule outer => exact AtRule.block_ne_empty _ _
      | nil =>
        simp only [Draft.finish, AtRule.wrap, List.foldr_nil]
        split
        · exact body_ne_empty rule rest
        · exact AtRule.block_ne_empty _ _

end GlobalRule

theorem globalRules_ne_empty {rules : List FlatRule} {text : SheetGroup × String}
    (member : text ∈ globalRules rules) : text.2 ≠ "" := by
  rw [globalRules_eq_gather] at member
  obtain ⟨part, inside, rfl⟩ := List.mem_map.mp member
  exact GlobalRule.finish_ofRules_ne_empty ((Grouping.parts_gather _ rules).filled part inside)

theorem group_globalRules {rules : List FlatRule} {text : SheetGroup × String}
    (member : text ∈ globalRules rules) : text.1 = .imports ∨ text.1 = .global := by
  obtain ⟨draft, -, rfl⟩ := List.mem_map.mp member
  cases draft with
  | statement text => exact .inl rfl
  | rule block atRules selector declarations => exact .inr rfl

/-- A part of a list of texts that are not empty is shorter than the list unless it is the whole. -/
theorem eq_or_length_join_lt {kept texts : List String} (part : kept.Sublist texts)
    (filled : ∀ text ∈ texts, text ≠ "") :
    kept = texts ∨ (String.join kept).length < (String.join texts).length := by
  induction part with
  | slnil => exact .inl rfl
  | @cons kept texts text _ ih =>
    obtain ⟨own, others⟩ := List.forall_mem_cons.mp filled
    have positive : 0 < text.length := by
      apply Nat.pos_of_ne_zero
      exact mt String.length_eq_zero_iff.mp own
    right
    rw [String.join_cons, String.length_append]
    rcases ih others with rfl | less
    · omega
    · omega
  | @cons_cons kept texts text _ ih =>
    rw [String.join_cons, String.join_cons, String.length_append, String.length_append]
    rcases ih (List.forall_mem_cons.mp filled).2 with rfl | less
    · exact .inl rfl
    · exact .inr (Nat.add_lt_add_left less _)

namespace SheetRule

/-- Only in its own group are there rules that stand level with a rule. -/
theorem filter_level_of_group (taken : List SheetRule) (rule : SheetRule) (group : SheetGroup) :
    (taken.filter fun other => other.group = group).filter rule.level =
      if rule.group = group then taken.filter rule.level else [] := by
  rw [List.filter_filter]
  split
  · next same =>
    apply List.filter_congr
    intro other _
    cases level : rule.level other with
    | false => rfl
    | true => simp [group_of_level level, same]
  · next different =>
    rw [List.filter_eq_nil_iff]
    intro other _ both
    simp only [Bool.and_eq_true, decide_eq_true_eq] at both
    exact different ((group_of_level both.1).symm.trans both.2)

/-- Imports and global texts are read by group, and in the order in which they came within each. -/
theorem stableOrder_texts {taken : List SheetRule} (unranked : ∀ rule ∈ taken, rule.rank = 0)
    (groups : ∀ rule ∈ taken, rule.group = .imports ∨ rule.group = .global) :
    StableOrder taken (taken.filter (fun rule => rule.group = .imports) ++
      taken.filter fun rule => rule.group = .global) where
  ordered := by
    have before {first second : SheetRule} {group other : SheetGroup}
        (order : group.order ≤ other.order)
        (left : first ∈ taken.filter fun rule => rule.group = group)
        (right : second ∈ taken.filter fun rule => rule.group = other) :
          first.before second = true := by
      simp only [List.mem_filter, decide_eq_true_eq] at left right
      rw [before_iff, unranked first left.1, unranked second right.1, left.2, right.2]
      omega
    have within (group : SheetGroup) : (taken.filter fun rule => rule.group = group).Pairwise
        fun first second => first.before second = true :=
      List.pairwise_of_forall_mem_list fun _ left _ right => before (Nat.le_refl _) left right
    refine List.pairwise_append.mpr ⟨within _, within _, ?_⟩
    exact fun _ left _ right => before (by decide) left right
  stable rule := by
    rw [List.filter_append, filter_level_of_group, filter_level_of_group]
    by_cases imports : rule.group = .imports
    · simp [imports]
    · by_cases global : rule.group = .global
      · simp [global]
      · rw [if_neg imports, if_neg global, List.append_nil, eq_comm, List.filter_eq_nil_iff]
        intro other member level
        have same := group_of_level level
        rcases groups other member with first | second
        · exact imports (same.symm.trans first)
        · exact global (same.symm.trans second)

end SheetRule

/-- A default theme is empty exactly if it declares no token. -/
theorem Theme.isEmpty_register (scales : ScaleMap) (namePrefix : String) :
    (register scales namePrefix).isEmpty = (register scales namePrefix).declared.isEmpty := by
  rw [Bool.eq_iff_iff]
  simp [isEmpty, register, entries, NameMap.values, NameMap.mapValues, NameMap.toList,
    NameMap.isEmpty]

namespace GlobalStyle

/-- The texts of a style that go to a group, one behind the other. -/
def textOf (style : GlobalStyle) (group : SheetGroup) : String :=
  String.join ((style.rules.filter fun text => text.1 = group).map (·.2))

def hashes (style : GlobalStyle) : List UInt64 :=
  style.rules.map fun text => (textInsertion text).hash

/-- A style without the texts whose hash came before. -/
def firsts (style : GlobalStyle) : GlobalStyle :=
  ⟨(Insertion.firsts [] (style.rules.map textInsertion)).map
    fun insertion => (insertion.group, insertion.css)⟩

variable {style : GlobalStyle}

theorem firsts_sublist (style : GlobalStyle) : style.firsts.rules.Sublist style.rules := by
  have part := (Insertion.firsts_sublist [] (style.rules.map textInsertion)).map
    fun insertion => (insertion.group, insertion.css)
  simpa [firsts, textInsertion, Function.comp_def] using part

theorem length_firsts_eq_iff :
    style.firsts.rules.length = style.rules.length ↔ style.hashes.Nodup := by
  have whole := @Insertion.length_firsts_eq_iff [] (style.rules.map textInsertion)
  simpa [firsts, hashes, Function.comp_def] using whole

/-- The rules of the texts that come first with their hash, of one group. -/
theorem textOf_firsts (style : GlobalStyle) (group : SheetGroup) :
    String.join ((((Insertion.firsts [] (style.rules.map textInsertion)).map Insertion.rule).filter
      fun rule => rule.group = group).map (·.css)) = style.firsts.textOf group := by
  simp only [textOf, firsts, List.filter_map, List.map_map]
  rfl

/-- The texts of a style in the order in which a sheet reads them. -/
def ordered (style : GlobalStyle) : List String :=
  (style.rules.filter (fun text => text.1 = .imports) ++
    style.rules.filter fun text => text.1 = .global).map (·.2)

theorem join_ordered (style : GlobalStyle) :
    String.join style.ordered = style.textOf .imports ++ style.textOf .global := by
  simp [ordered, textOf]

theorem ordered_sublist {part : GlobalStyle} (within : part.rules.Sublist style.rules) :
    part.ordered.Sublist style.ordered :=
  ((within.filter _).append (within.filter _)).map _

section Made

variable {rules : List FlatRule} (made : style.rules ⊆ globalRules rules)

include made

theorem ordered_ne_empty : ∀ text ∈ style.ordered, text ≠ "" := by
  intro text member
  obtain ⟨own, inside, rfl⟩ := List.mem_map.mp member
  apply globalRules_ne_empty
  rcases List.mem_append.mp inside with first | second
  · exact made (List.mem_of_mem_filter first)
  · exact made (List.mem_of_mem_filter second)

theorem length_ordered : style.ordered.length = style.rules.length := by
  have others : style.rules.filter (fun text => text.1 = .global) =
      style.rules.filter fun text => !decide (text.1 = .imports) := by
    apply List.filter_congr
    intro text member
    rcases group_globalRules (made member) with imports | global
    · simp [imports]
    · simp [global]
  rw [ordered, others, List.length_map, List.length_append, ← List.length_eq_length_filter_add]

/-- The texts that come first with their hash read as all texts exactly if no hash comes twice. -/
theorem textOf_firsts_eq_iff :
    style.firsts.textOf .imports ++ style.firsts.textOf .global =
        style.textOf .imports ++ style.textOf .global ↔ style.hashes.Nodup := by
  have part := style.firsts_sublist
  constructor
  · intro same
    rw [← join_ordered, ← join_ordered] at same
    rcases eq_or_length_join_lt (ordered_sublist part) (ordered_ne_empty made) with whole | less
    · rw [← length_firsts_eq_iff, ← length_ordered made, ← whole,
        length_ordered (List.Subset.trans part.subset made)]
    · rw [same] at less
      exact absurd less (Nat.lt_irrefl _)
  · intro distinct
    have whole := part.eq_of_length (length_firsts_eq_iff.mpr distinct)
    simp only [textOf, whole]

end Made

theorem nodup_rules (distinct : style.hashes.Nodup) : style.rules.Nodup := distinct.of_map

end GlobalStyle

namespace Engine

variable {engine : Engine} {config : Config} {replicated : Bool} {style : GlobalStyle}
  {rules : List FlatRule}

/-- Delivering what is queued after each text does not change what the sheet takes. -/
theorem unqueued_insertTexts (quiet : engine.Quiet) (texts : List (SheetGroup × String)) :
    (engine.insertTexts drain texts).sheet.unqueued =
      engine.sheet.unqueued.insertAll (texts.map textInsertion) := by
  induction texts generalizing engine with
  | nil => rfl
  | cons text rest ih =>
    have taken :
        ({ engine with sheet := (engine.sheet.take (textInsertion text)).2 } : Engine).Quiet :=
      quiet
    have inserted : (engine.insertText drain text.1 text.2).sheet.unqueued =
        (engine.sheet.unqueued.take (textInsertion text)).2 := by
      obtain ⟨-, replica, pending, same⟩ := drain_of_quiet taken
      rw [← Sheet.unqueued_take]
      exact congrArg (fun engine : Engine => engine.sheet.unqueued) same
    have later := ih (quiet_insertText quiet text.1 text.2)
    rw [inserted] at later
    exact later

theorem rules_apply (made : style.rules ⊆ globalRules rules) :
    let taken := (Insertion.firsts [] (style.rules.map textInsertion)).map Insertion.rule
    ((bare config replicated).apply drain style).sheet.rules =
      taken.filter (fun rule => rule.group = .imports) ++ taken.filter fun rule =>
        rule.group = .global := by
  intro taken
  have nothing : (bare config replicated).sheet.unqueued = Sheet.fresh none := by
    cases replicated <;> rfl
  have sheet := unqueued_insertTexts (quiet_bare config replicated) style.rules
  rw [nothing] at sheet
  have origin : ∀ rule ∈ taken, ∃ text ∈ style.rules, (textInsertion text).rule = rule := by
    intro rule member
    obtain ⟨insertion, first, rfl⟩ := List.mem_map.mp member
    obtain ⟨text, inside, rfl⟩ := List.mem_map.mp (Insertion.firsts_subset _ _ first)
    exact ⟨text, inside, rfl⟩
  have written : ((bare config replicated).apply drain style).sheet.unqueued.rules =
      ((Sheet.fresh none).insertAll (style.rules.map textInsertion)).rules :=
        congrArg Sheet.rules sheet
  apply written.trans
  apply (Sheet.rules_insertAll none _).unique
  apply SheetRule.stableOrder_texts
  · intro rule member
    obtain ⟨text, -, rfl⟩ := origin rule member
    rfl
  · intro rule member
    obtain ⟨text, inside, rfl⟩ := origin rule member
    exact group_globalRules (made inside)

theorem cssText_apply_bare (made : style.rules ⊆ globalRules rules) :
    ((bare config replicated).apply drain style).cssText =
      style.firsts.textOf .imports ++ style.firsts.textOf .global := by
  rw [cssText, Sheet.text, Sheet.texts, rules_apply made, List.map_append, String.join_append,
    GlobalStyle.textOf_firsts, GlobalStyle.textOf_firsts]

theorem start_of_no_tokens (no_tokens : config.defaultTheme.declared = []) :
    start drain config replicated = bare config replicated := by
  have empty : config.defaultTheme.isEmpty = true := by
    rw [Config.defaultTheme, Theme.isEmpty_register]
    exact List.isEmpty_iff.mpr no_tokens
  exact if_pos empty

/-- Applied to an engine without rules, a style leaves its imports and then its other texts, but of
those that share a hash only the first. So the sheet has the whole text of a style exactly if no
hash comes twice in it, and never if a text does. -/
theorem cssText_apply (no_tokens : config.defaultTheme.declared = []) {node : StyleNode}
    (compiled : (start drain config replicated).globalCss node = .ok style) :
    let text := ((start drain config replicated).apply drain style).cssText
    text = style.firsts.textOf .imports ++ style.firsts.textOf .global ∧
      (text = style.textOf .imports ++ style.textOf .global ↔ style.hashes.Nodup) ∧
      (¬ style.rules.Nodup → text ≠ style.textOf .imports ++ style.textOf .global) := by
  intro text
  obtain ⟨rules, -, made⟩ := globalCss_eq_ok compiled
  have within : style.rules ⊆ globalRules rules := fun _ member => made ▸ member
  have read : text = style.firsts.textOf .imports ++ style.firsts.textOf .global := by
    rw [← cssText_apply_bare within, ← start_of_no_tokens no_tokens]
  refine ⟨read, ?_, ?_⟩
  · rw [read]
    exact GlobalStyle.textOf_firsts_eq_iff within
  · intro repeated whole
    rw [read] at whole
    exact repeated (GlobalStyle.nodup_rules ((GlobalStyle.textOf_firsts_eq_iff within).mp whole))

/-- A block that is repeated behind another one of its selector is lost: the other one counts. -/
theorem cssText_apply_repeated :
    let config : Config := ⟨"", .empty, [], .empty, .empty⟩
    let node : StyleNode :=
      [("a", .list [.node [("color", .text "red")], .node [("color", .text "blue")],
      .node [("color", .text "red")]])]
    let red := AtRule.block "a" "color:red"
    let blue := AtRule.block "a" "color:blue"
    let style : GlobalStyle := ⟨[(.global, red), (.global, blue), (.global, red)]⟩
    let engine := start drain config false
    config.defaultTheme.declared = [] ∧ engine.globalCss node = .ok style ∧
      style.textOf .imports ++ style.textOf .global = red ++ blue ++ red ∧
      (engine.apply drain style).cssText = red ++ blue ∧
      (engine.apply drain style).cssText ≠ style.textOf .imports ++ style.textOf .global := by
  intro config node red blue style engine
  have no_tokens : config.defaultTheme.declared = [] := rfl
  have compiled : engine.globalCss node = .ok style := by
    have flat : flatten engine.vocabulary .global node = .ok [⟨[], "a", "color", "red", 0, 1⟩,
        ⟨[], "a", "color", "blue", 1, 2⟩, ⟨[], "a", "color", "red", 2, 3⟩] := by decide +kernel
    simp only [globalCss, flat]
    rfl
  obtain ⟨read, -, lost⟩ := cssText_apply no_tokens compiled
  refine ⟨no_tokens, compiled, rfl, ?_, lost ?_⟩
  · have firsts : style.firsts.rules = [(.global, red), (.global, blue)] := by decide +kernel
    rw [read]
    simp only [GlobalStyle.textOf, firsts]
    decide +kernel
  · decide +kernel

end Engine

end AtomicCss
