import AtomicCss.Proofs.Basic
import AtomicCss.Rule.Flat

/-!
Two walks over one style object.

A walk reads the place of a block and the numbers of entries and blocks only to write them into its
rules. So two walks over the same object, at places that differ at most in their block, fail alike
or stay related, for every relation of outputs that each written entry keeps.
-/

namespace AtomicCss

section Results

variable {Fail First Second First' Second' : Type}

/-- Two results that are both errors, the same one, or both successes that are related. -/
inductive Agree (Related : First → Second → Prop) :
    Except Fail First → Except Fail Second → Prop where
  | ok {first second} : Related first second → Agree Related (.ok first) (.ok second)
  | error (error) : Agree Related (.error error) (.error error)

theorem Agree.bind {Before : First → Second → Prop} {After : First' → Second' → Prop}
    {first : Except Fail First} {second : Except Fail Second} {next : First → Except Fail First'}
    {other : Second → Except Fail Second'} (agree : Agree Before first second)
    (agrees : ∀ {left right}, Before left right → Agree After (next left) (other right)) :
    Agree After (first >>= next) (second >>= other) := by
  cases agree with
  | ok related => exact agrees related
  | error error => exact .error error

theorem Agree.same (result : Except Fail First) : Agree Eq result result := by
  cases result with
  | error error => exact .error error
  | ok value => exact .ok rfl

theorem Agree.of_ok {Related : First → Second → Prop} {first : First} {second : Except Fail Second}
    (agree : Agree Related (.ok first) second) :
    ∃ found, second = .ok found ∧ Related first found := by
  cases agree with
  | ok related => exact ⟨_, rfl, related⟩

end Results

namespace AtRule

/-- The text starts as every at-rule does. -/
def Marked (atRule : String) : Prop := ∃ rest, atRule.toList = '@' :: rest

theorem marked_append {text : String} (marked : Marked text) (more : String) :
    Marked (text ++ more) := by
  obtain ⟨rest, starts⟩ := marked
  exact ⟨rest ++ more.toList, by simp [starts]⟩

/-- Collapsing the blanks of a text keeps a first character that is not blank. -/
theorem marked_collapse {text : String} (marked : Marked text) : Marked (Text.collapse text) := by
  obtain ⟨rest, starts⟩ := marked
  have shown : Text.isBlank '@' = false := by decide
  simp only [Marked, Text.collapse, String.toList_ofList, Text.Chars.collapse, Text.Chars.words,
    starts, Text.Chars.split, shown]
  cases Text.Chars.split Text.isBlank rest with
  | nil => exact ⟨[], rfl⟩
  | cons piece pieces =>
    have kept : (('@' :: piece) :: pieces).filter (fun word => !word.isEmpty) =
        ('@' :: piece) :: pieces.filter (fun word => !word.isEmpty) := rfl
    cases more : pieces.filter (fun word => !word.isEmpty) with
    | nil => exact ⟨piece, by simp [kept, more, List.intercalate]⟩
    | cons next others =>
      exact ⟨piece ++ [' '].intercalate ([] :: next :: others),
        by simp [kept, more, List.intercalate, List.intersperse]⟩

theorem marked_of_hasPrefix {key : String} (marks : Text.hasPrefix "@" key = true) :
    Marked key := by
  cases starts : key.toList with
  | nil => simp [Text.hasPrefix, starts] at marks
  | cons c rest =>
    have first : '@' = c := by simpa [Text.hasPrefix, starts] using marks
    exact ⟨rest, by rw [starts, first]⟩

theorem marked_ofKey (breakpoints : Breakpoints) {key : String}
    (marks : Text.hasPrefix "@" key = true) : Marked (ofKey breakpoints key) := by
  unfold ofKey
  split
  · exact marked_append ⟨_, rfl⟩ _
  · exact marked_collapse (marked_of_hasPrefix marks)

end AtRule

theorem KeyKind.hasPrefix_of_atRule {utilities : NameMap Utility} {key : String}
    {value : StyleValue} (kind : KeyKind.of utilities key value = .atRule) :
    Text.hasPrefix "@" key = true := by
  unfold KeyKind.of at kind
  split at kind
  · cases kind
  · split at kind
    · cases kind
    · split at kind
      · assumption
      · split at kind
        · cases kind
        · split at kind <;> cases kind

/-- What an at-rule key is that names no utility. -/
theorem KeyKind.of_marked {utilities : NameMap Utility} {key : String}
    (marked : Text.hasPrefix "@" key = true) (free : utilities.get? key = none)
    (value : StyleValue) :
    KeyKind.of utilities key value = if value.isBlock then .atRule else .atStatement := by
  obtain ⟨rest, starts⟩ := AtRule.marked_of_hasPrefix marked
  have no_token : Text.hasPrefix "$$" key = false := by
    simp [Text.hasPrefix, starts, List.isPrefixOf]
  simp [KeyKind.of, no_token, NameMap.contains, free, marked]

theorem AtRule.not_allBlank_of_hasPrefix {key : String} (marked : Text.hasPrefix "@" key = true) :
    Text.allBlank key = false := by
  obtain ⟨rest, starts⟩ := AtRule.marked_of_hasPrefix marked
  simp [Text.allBlank, starts, show Text.isBlank '@' = false by decide]

namespace Flatten

/-- What an at-rule key that names no utility comes to in a scoped style. -/
theorem step_marked {vocabulary : Vocabulary} {key : String}
    (marked : Text.hasPrefix "@" key = true) (free : vocabulary.utilities.get? key = none)
    (place : Place) (value : StyleValue) (out : Output) :
    step vocabulary .scoped place key value out =
      if value.isBlock then
        .ok (.blocks { place with
          atRules := place.atRules ++ [AtRule.ofKey vocabulary.breakpoints key]
          bare := false })
      else .error .misplacedStatement := by
  have shown := AtRule.not_allBlank_of_hasPrefix marked
  have kind := KeyKind.of_marked marked free value
  by_cases block : value.isBlock = true
  · simp [step, shown, kind, block]
  · simp [step, shown, kind, block]

/-- Two places that differ at most in their block; their at-rules are all marked as such. -/
def Place.Alike (first second : Place) : Prop :=
  (∃ block, second = { first with block }) ∧ ∀ atRule ∈ first.atRules, AtRule.Marked atRule

theorem alike_rootPlace (mode : FlattenMode) : (rootPlace mode).Alike (rootPlace mode) :=
  ⟨⟨0, rfl⟩, by simp [rootPlace]⟩

/-- A relation between the outputs of two walks that every written entry keeps. -/
structure Tracks (Related : Output → Output → Prop) : Prop where
  declare : ∀ {first second : Place} {out other : Output}, first.Alike second → Related out other →
    ∀ property values,
      Related (out.declare first property values) (other.declare second property values)
  state : ∀ {out other : Output}, Related out other →
    ∀ property values, Related (out.state property values) (other.state property values)
  block : ∀ {out other : Output}, Related out other →
    ∀ number next, Related { out with nextBlock := number } { other with nextBlock := next }

/-- What an entry comes to in two walks. -/
inductive Step.Alike (Related : Output → Output → Prop) : Step → Step → Prop where
  | written {out other} : Related out other → Alike Related (.written out) (.written other)
  | expansion (utility) {first second : Place} (node) : first.Alike second →
      Alike Related (.expansion utility first node) (.expansion utility second node)
  | blocks {first second : Place} : first.Alike second →
      Alike Related (.blocks first) (.blocks second)

variable {Related : Output → Output → Prop} {vocabulary : Vocabulary} {mode : FlattenMode}
  {first second : Place} {out other : Output}

theorem declare_alike (vocabulary : Vocabulary) (tracks : Tracks Related)
    (places : first.Alike second) (outputs : Related out other) (key : String)
    (value : StyleValue) :
    Agree (Step.Alike Related) (declare vocabulary first key value out)
      (declare vocabulary second key value other) := by
  have written (property : String) (values : List String) :
      Step.Alike Related (.written (out.declare first property values))
        (.written (other.declare second property values)) :=
    .written (tracks.declare places outputs property values)
  obtain ⟨⟨block, rfl⟩, -⟩ := places
  unfold declare
  split
  · exact .error _
  · split
    · exact .error _
    · exact (Agree.same _).bind fun same => .ok (same ▸ written _ _)

theorem step_alike (vocabulary : Vocabulary) (mode : FlattenMode) (tracks : Tracks Related)
    (places : first.Alike second) (outputs : Related out other) (key : String)
    (value : StyleValue) :
    Agree (Step.Alike Related) (step vocabulary mode first key value out)
      (step vocabulary mode second key value other) := by
  have declared := declare_alike vocabulary tracks places outputs key value
  have expanded (node : StyleNode) :
      Step.Alike Related (.expansion key first node) (.expansion key second node) :=
    .expansion key node places
  have stated (values : List String) :
      Step.Alike Related (.written (out.state key values)) (.written (other.state key values)) :=
    .written (tracks.state outputs key values)
  obtain ⟨⟨block, rfl⟩, marked⟩ := places
  unfold step
  split
  · exact .error _
  · cases kind : KeyKind.of vocabulary.utilities key value with
    | property | localToken => exact declared
    | utility =>
      cases vocabulary.utilities.get? key with
      | none => exact .ok (.written outputs)
      | some utility =>
        by_cases accepts : utility.accepts value = true
        · simpa only [accepts, if_true] using .ok (expanded (utility.expand value))
        · simpa only [accepts] using .error _
    | pseudoSelector | descendantSelector =>
      cases Selector.nest? first.selectors key with
      | none => exact .error _
      | some selectors => exact .ok (.blocks ⟨⟨block, rfl⟩, marked⟩)
    | atRule =>
      apply Agree.ok
      apply Step.Alike.blocks
      refine ⟨⟨block, rfl⟩, ?_⟩
      intro atRule member
      rcases List.mem_append.mp member with outer | own
      · exact marked atRule outer
      · obtain rfl := List.mem_singleton.mp own
        exact AtRule.marked_ofKey _ (KeyKind.hasPrefix_of_atRule kind)
    | atStatement =>
      dsimp only
      split
      · exact .error _
      · exact (Agree.same _).bind fun same => .ok (same ▸ stated _)

theorem blocks_cons_of_not_node {item : StyleValue} (skipped : item.isNode = false)
    (expand : Expander) (place : Place) (number : Nat) (rest : List StyleValue) (out : Output) :
    blocks vocabulary mode expand place number (item :: rest) out =
      blocks vocabulary mode expand place number rest out := by
  cases item with
  | node entries => simp [StyleValue.isNode] at skipped
  | text content => simp [blocks]
  | number value => simp [blocks]
  | list items => simp [blocks]

/-- An expander whose walks stay related. -/
def Expands (Related : Output → Output → Prop) (expand : Expander) : Prop :=
  ∀ utility node {first second : Place} {out other : Output}, first.Alike second →
    Related out other →
    Agree Related (expand utility first node out) (expand utility second node other)

mutual

theorem entries_alike (tracks : Tracks Related) {expand : Expander}
    (expands : Expands Related expand) (items : List (String × StyleValue)) {first second : Place}
    {out other : Output} (places : first.Alike second) (outputs : Related out other) :
    Agree Related (entries vocabulary mode expand first items out)
      (entries vocabulary mode expand second items other) := by
  match items with
  | [] =>
    rw [entries, entries]
    exact .ok outputs
  | (key, value) :: rest =>
    rw [entries, entries]
    have inner : Place.Alike { first with path := keyPath first.path key }
        { second with path := keyPath second.path key } := by
      obtain ⟨⟨block, rfl⟩, marked⟩ := places
      exact ⟨⟨block, rfl⟩, marked⟩
    exact (entry_alike tracks expands key value inner outputs).bind fun related =>
      entries_alike tracks expands rest places related

theorem entry_alike (tracks : Tracks Related) {expand : Expander} (expands : Expands Related expand)
    (key : String) (value : StyleValue) {first second : Place} {out other : Output}
    (places : first.Alike second) (outputs : Related out other) :
    Agree Related (entry vocabulary mode expand first key value out)
      (entry vocabulary mode expand second key value other) := by
  have stepped := step_alike vocabulary mode tracks places outputs key value
  rw [entry, entry]
  have path : second.path = first.path := by
    obtain ⟨⟨block, rfl⟩, -⟩ := places
    rfl
  generalize step vocabulary mode first key value out = own at stepped ⊢
  generalize step vocabulary mode second key value other = their at stepped ⊢
  cases stepped with
  | error fault =>
    rw [path]
    exact .error _
  | ok alike =>
    cases alike with
    | written related => exact .ok related
    | expansion utility node inner => exact expands utility node inner outputs
    | @blocks inner nested within =>
      have numbered (number next : Nat) :
          Place.Alike { inner with block := number } { nested with block := next } := by
        obtain ⟨⟨block, rfl⟩, marked⟩ := within
        exact ⟨⟨next, rfl⟩, marked⟩
      match value with
      | .node block =>
        exact entries_alike tracks expands block (numbered _ _) (tracks.block outputs _ _)
      | .list items => exact blocks_alike tracks expands items within _ _ (tracks.block outputs _ _)
      | .text _ => exact .ok outputs
      | .number _ => exact .ok outputs

theorem blocks_alike (tracks : Tracks Related) {expand : Expander}
    (expands : Expands Related expand) (items : List StyleValue) {first second : Place}
    {out other : Output} (places : first.Alike second) (number next : Nat)
    (outputs : Related out other) :
    Agree Related (blocks vocabulary mode expand first number items out)
      (blocks vocabulary mode expand second next items other) := by
  match items with
  | [] =>
    rw [blocks, blocks]
    exact .ok outputs
  | .node block :: rest =>
    rw [blocks, blocks]
    have numbered : Place.Alike { first with block := number } { second with block := next } := by
      obtain ⟨⟨block, rfl⟩, marked⟩ := places
      exact ⟨⟨next, rfl⟩, marked⟩
    exact (entries_alike tracks expands block numbered outputs).bind fun related =>
      blocks_alike tracks expands rest places _ _ related
  | .list _ :: rest =>
    rw [blocks_cons_of_not_node rfl, blocks_cons_of_not_node rfl]
    exact blocks_alike tracks expands rest places _ _ outputs
  | .text _ :: rest =>
    rw [blocks_cons_of_not_node rfl, blocks_cons_of_not_node rfl]
    exact blocks_alike tracks expands rest places _ _ outputs
  | .number _ :: rest =>
    rw [blocks_cons_of_not_node rfl, blocks_cons_of_not_node rfl]
    exact blocks_alike tracks expands rest places _ _ outputs

end

theorem expands_expansion (tracks : Tracks Related) (remaining : Nat) :
    Expands Related (expansion vocabulary mode remaining) := by
  induction remaining with
  | zero =>
    intro utility node first second out other places outputs
    exact .error _
  | succ remaining ih =>
    intro utility node first second out other places outputs
    exact entries_alike tracks ih node places outputs

/-- The walk of a style object as part of a larger one. -/
def walk (vocabulary : Vocabulary) (mode : FlattenMode) (node : StyleNode) (out : Output) :
    Except StyleError Output :=
  entries vocabulary mode (expansion vocabulary mode Utility.depthLimit) (rootPlace mode) node out

theorem walk_alike (tracks : Tracks Related) (node : StyleNode) (outputs : Related out other) :
    Agree Related (walk vocabulary mode node out) (walk vocabulary mode node other) :=
  entries_alike tracks (expands_expansion tracks _) node (alike_rootPlace mode) outputs

/-- Entries that follow one another are walked one after the other. -/
theorem entries_append (expand : Expander) (place : Place) (front back : StyleNode) (out : Output) :
    entries vocabulary mode expand place (front ++ back) out =
      entries vocabulary mode expand place front out >>=
        entries vocabulary mode expand place back := by
  induction front generalizing out with
  | nil => rfl
  | cons item rest ih =>
    simp only [List.cons_append, entries]
    cases entry vocabulary mode expand _ _ _ out with
    | error error => rfl
    | ok next => exact ih next

theorem walk_append (front back : StyleNode) (out : Output) :
    walk vocabulary mode (front ++ back) out =
      walk vocabulary mode front out >>= walk vocabulary mode back :=
  entries_append _ _ front back out

theorem flatten_eq_ok {node : StyleNode} {rules : List FlatRule} :
    flatten vocabulary mode node = .ok rules ↔
      ∃ out, walk vocabulary mode node .start = .ok out ∧ out.rules = rules := by
  unfold flatten walk
  simp [bind_eq_ok, pure, Except.pure]

theorem tracks_marked :
    Tracks fun out _ => ∀ rule ∈ out.rules, ∀ atRule ∈ rule.atRules, AtRule.Marked atRule where
  declare places marked property values rule member := by
    rcases List.mem_append.mp member with earlier | written
    · exact marked rule earlier
    · obtain ⟨value, -, rfl⟩ := List.mem_map.mp written
      exact places.2
  state marked property values rule member := by
    rcases List.mem_append.mp member with earlier | written
    · exact marked rule earlier
    · obtain ⟨index, within, rfl⟩ := List.mem_mapIdx.mp written
      simp
  block marked _ _ := marked

/-- Every rule was written by an entry that was numbered before the next. -/
theorem tracks_origin : Tracks fun out _ => ∀ rule ∈ out.rules, rule.origin < out.nextOrigin where
  declare _ numbered property values rule member := by
    rcases List.mem_append.mp member with earlier | written
    · exact Nat.lt_succ_of_lt (numbered rule earlier)
    · obtain ⟨value, -, rfl⟩ := List.mem_map.mp written
      exact Nat.lt_succ_self _
  state numbered property values rule member := by
    rcases List.mem_append.mp member with earlier | written
    · exact Nat.lt_succ_of_lt (numbered rule earlier)
    · obtain ⟨index, within, rfl⟩ := List.mem_mapIdx.mp written
      exact Nat.lt_succ_self _
  block numbered _ _ := numbered

/-- Entries are numbered in the order in which they write. -/
theorem tracks_rising : Tracks fun out _ =>
    (out.rules.Pairwise fun first second => first.origin ≤ second.origin) ∧
      ∀ rule ∈ out.rules, rule.origin < out.nextOrigin where
  declare {first second out other} places rising property values := by
    have numbered :=
      @Tracks.declare _ tracks_origin first second out other places rising.2 property values
    refine ⟨List.pairwise_append.mpr ⟨rising.1, ?_, ?_⟩, numbered⟩
    · exact List.pairwise_map.mpr (List.pairwise_of_forall fun _ _ => Nat.le_refl _)
    · intro rule before other member
      obtain ⟨value, -, rfl⟩ := List.mem_map.mp member
      exact Nat.le_of_lt (rising.2 rule before)
  state {out other} rising property values := by
    have numbered := @Tracks.state _ tracks_origin out other rising.2 property values
    refine ⟨List.pairwise_append.mpr ⟨rising.1, ?_, ?_⟩, numbered⟩
    · apply List.pairwise_of_forall_mem_list
      intro first left second right
      obtain ⟨index, within, rfl⟩ := List.mem_mapIdx.mp left
      obtain ⟨other, within_other, rfl⟩ := List.mem_mapIdx.mp right
      exact Nat.le_refl _
    · intro rule before other member
      obtain ⟨index, within, rfl⟩ := List.mem_mapIdx.mp member
      exact Nat.le_of_lt (rising.2 rule before)
  block rising _ _ := rising

/-- The second rule is the first of an entry that has a number higher by `shift`, in any block. -/
def Moved (shift : Nat) (rule moved : FlatRule) : Prop :=
  moved = { rule with origin := rule.origin + shift, block := moved.block }

/-- The second output holds what the first does behind earlier rules. -/
def Behind (shift : Nat) (earlier : List FlatRule) (out other : Output) : Prop :=
  other.nextOrigin = out.nextOrigin + shift ∧
    ∃ moved, other.rules = earlier ++ moved ∧ List.Forall₂ (Moved shift) out.rules moved

theorem Behind.write {shift : Nat} {earlier : List FlatRule} {out other : Output}
    (behind : Behind shift earlier out other) {written moved : List FlatRule}
    (moves : List.Forall₂ (Moved shift) written moved) (next block : Nat) :
    Behind shift earlier ⟨out.rules ++ written, out.nextOrigin + 1, next⟩
      ⟨other.rules ++ moved, other.nextOrigin + 1, block⟩ := by
  obtain ⟨origin, before, rules, moved_before⟩ := behind
  refine ⟨by simp only [origin]; omega, before ++ moved, by simp [rules], ?_⟩
  exact List.rel_append moved_before moves

theorem tracks_behind (shift : Nat) (earlier : List FlatRule) : Tracks (Behind shift earlier) where
  declare places behind property values := by
    obtain ⟨⟨block, rfl⟩, -⟩ := places
    apply behind.write
    simp [List.forall₂_map_left_iff, List.forall₂_map_right_iff, List.forall₂_same, Moved, behind.1]
  state behind property values := by
    apply behind.write
    rw [List.forall₂_iff_get]
    constructor
    · simp
    · intro index _ _
      simp [Moved, behind.1]
  block behind _ _ := behind

end Flatten

open Flatten

section

variable {vocabulary : Vocabulary} {mode : FlattenMode}

theorem marked_flatten {node : StyleNode} {rules : List FlatRule}
    (flat : flatten vocabulary mode node = .ok rules) {rule : FlatRule} (member : rule ∈ rules) :
    ∀ atRule ∈ rule.atRules, AtRule.Marked atRule := by
  have alike : Agree _ (walk vocabulary mode node .start) (walk vocabulary mode node .start) :=
    walk_alike tracks_marked node (by simp [Output.start])
  obtain ⟨out, walked, rfl⟩ := flatten_eq_ok.mp flat
  rw [walked] at alike
  obtain ⟨_, _, marked⟩ := alike.of_ok
  exact marked rule member

/-- The rules of an entry stand behind those of the entries before it. -/
theorem rising_flatten {node : StyleNode} {rules : List FlatRule}
    (flat : flatten vocabulary mode node = .ok rules) :
    rules.Pairwise fun first second => first.origin ≤ second.origin := by
  have alike : Agree _ (walk vocabulary mode node .start) (walk vocabulary mode node .start) :=
    walk_alike tracks_rising node (by simp [Output.start])
  obtain ⟨out, walked, rfl⟩ := flatten_eq_ok.mp flat
  rw [walked] at alike
  obtain ⟨_, _, rising, -⟩ := alike.of_ok
  exact rising

/-- Flattening splits where a style object does: the rules of the second part stand behind those of
the first and come from entries that are numbered after them. -/
theorem flatten_append {front back : StyleNode} {rules : List FlatRule}
    (flat : flatten vocabulary mode (front ++ back) = .ok rules) :
    ∃ first second moved shift, flatten vocabulary mode front = .ok first ∧
      flatten vocabulary mode back = .ok second ∧ rules = first ++ moved ∧
      List.Forall₂ (Moved shift) second moved ∧ ∀ rule ∈ first, rule.origin < shift := by
  obtain ⟨out, walked, rfl⟩ := flatten_eq_ok.mp flat
  rw [walk_append] at walked
  obtain ⟨before, walked_front, walked_back⟩ := bind_eq_ok.mp walked
  have numbered : Agree _ (walk vocabulary mode front .start) (walk vocabulary mode front .start) :=
    walk_alike tracks_origin front (by simp [Output.start])
  have behind : Agree _ (walk vocabulary mode back .start) (walk vocabulary mode back before) :=
    walk_alike (tracks_behind before.nextOrigin before.rules) back
      ⟨by simp [Output.start], [], by simp, .nil⟩
  rw [walked_front] at numbered
  rw [walked_back] at behind
  obtain ⟨_, -, origins⟩ := numbered.of_ok
  generalize alone : walk vocabulary mode back .start = result at behind
  cases behind with
  | ok related =>
    obtain ⟨-, moved, rules, moves⟩ := related
    exact ⟨before.rules, _, moved, before.nextOrigin, flatten_eq_ok.mpr ⟨before, walked_front, rfl⟩,
      flatten_eq_ok.mpr ⟨_, alone, rfl⟩, rules, moves, origins⟩

end

end AtomicCss
