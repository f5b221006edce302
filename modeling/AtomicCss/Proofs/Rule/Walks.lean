import AtomicCss.Proofs.Rule.Writings
import AtomicCss.Rule.Global

/-!
Walks through a style object, and the numbers that they give to its blocks.

A walk that succeeds writes one rule for each value of each entry that writes, in their order. The
rules of an entry share an origin of their own. Block numbers tell blocks apart: an entry numbers
its blocks before it walks them, and what is walked inside takes later numbers, so that declarations
share a number exactly if they were written in one block.
-/

namespace AtomicCss

namespace Flatten

/-- What a walk wrote, entry by entry. -/
abbrev Trace := List (Writing × List FlatRule)

/-- A rule is made of a value of an entry. -/
structure Shows (vocabulary : Vocabulary) (writing : Writing) (value : String) (rule : FlatRule) :
    Prop where
  place : rule.place = writing.place vocabulary
  value : rule.value = value
  statement : GlobalRule.isStatement rule = writing.isStatement vocabulary

/-- The rules of an entry: one for each of its values, with the origin of the entry. -/
def Written (vocabulary : Vocabulary) (writing : Writing) (origin : Nat) (rules : List FlatRule) :
    Prop :=
  ∃ values, writing.values vocabulary = .ok values ∧
    List.Forall₂ (fun value rule => Shows vocabulary writing value rule ∧
      rule.origin = origin) values rules

section Written

variable {vocabulary : Vocabulary} {writing : Writing} {entry : Nat} {rules : List FlatRule}

theorem Written.origin (written : Written vocabulary writing entry rules) :
    ∀ rule ∈ rules, rule.place = writing.place vocabulary ∧ rule.origin = entry := by
  intro rule member
  obtain ⟨values, -, own⟩ := written
  obtain ⟨value, -, shows, same⟩ := exists_left_of_forall₂ own member
  exact ⟨shows.place, same⟩

theorem Written.shows (written : Written vocabulary writing entry rules) {rule : FlatRule}
    (member : rule ∈ rules) : Shows vocabulary writing rule.value rule := by
  obtain ⟨values, -, own⟩ := written
  obtain ⟨value, -, shows, -⟩ := exists_left_of_forall₂ own member
  exact shows.value ▸ shows

theorem Written.values (written : Written vocabulary writing entry rules) :
    writing.values vocabulary = .ok (rules.map (·.value)) := by
  obtain ⟨values, read, own⟩ := written
  rw [read]
  congr 1
  clear read
  induction own with
  | nil => rfl
  | cons first _ ih => rw [List.map_cons, ← ih, first.1.value]

theorem written_of_mem {trace : Trace} {start : Nat}
    (written : ∀ own ∈ trace.zipIdx start, Written vocabulary own.1.1 own.2 own.1.2)
    {own : Writing × List FlatRule} (member : own ∈ trace) :
    ∃ origin, Written vocabulary own.1 origin own.2 := by
  rw [← List.zipIdx_map_fst start trace] at member
  obtain ⟨⟨_, origin⟩, inside, rfl⟩ := List.mem_map.mp member
  exact ⟨origin, written _ inside⟩

end Written

/-- A walk added the rules of entries, with an origin for each. -/
structure Traced (vocabulary : Vocabulary) (writings : List Writing) (out next : Output)
    (trace : Trace) : Prop where
  writings : trace.map (·.1) = writings
  rules : next.rules = out.rules ++ trace.flatMap (·.2)
  origins : next.nextOrigin = out.nextOrigin + trace.length
  written : ∀ own ∈ trace.zipIdx out.nextOrigin, Written vocabulary own.1.1 own.2 own.1.2

section Tracing

variable {vocabulary : Vocabulary} {writings others : List Writing} {out middle next : Output}
  {trace more : Trace}

theorem traced_nil (out : Output) : Traced vocabulary [] out out [] where
  writings := rfl
  rules := (List.append_nil _).symm
  origins := rfl
  written := by simp

theorem Traced.trans (first : Traced vocabulary writings out middle trace)
    (second : Traced vocabulary others middle next more) :
    Traced vocabulary (writings ++ others) out next (trace ++ more) where
  writings := by rw [List.map_append, first.writings, second.writings]
  rules := by rw [second.rules, first.rules, List.flatMap_append, List.append_assoc]
  origins := by
    rw [second.origins, first.origins, List.length_append]
    omega
  written own member := by
    rw [List.zipIdx_append, ← first.origins] at member
    rcases List.mem_append.mp member with earlier | later
    · exact first.written own earlier
    · exact second.written own later

/-- Numbers of blocks that were taken before leave no trace. -/
theorem Traced.of_numbered {number : Nat}
    (traced : Traced vocabulary writings { out with nextBlock := number } next trace) :
    Traced vocabulary writings out next trace :=
  ⟨traced.writings, traced.rules, traced.origins, traced.written⟩

end Tracing

/-- The number of a block and the positions that lead to it. -/
abbrev BlockMark := Nat × List Nat

/-- The blocks that declarations of a trace were written in. -/
def marks (vocabulary : Vocabulary) (trace : Trace) : List BlockMark :=
  trace.flatMap fun (writing, rules) =>
    if writing.isStatement vocabulary then []
    else rules.map fun rule => (rule.block, writing.site.block)

/-- Numbers tell blocks apart. Each block is the one around the walk or a new one, whose number and
positions belong to the walk. -/
structure Numbered (around : BlockMark) (numbers : Nat → Prop) (positions : List Nat → Prop)
    (marks : List BlockMark) : Prop where
  not_number : ¬ numbers around.1
  not_position : ¬ positions around.2
  range : ∀ mark ∈ marks, mark = around ∨ numbers mark.1 ∧ positions mark.2
  apart : ∀ first ∈ marks, ∀ second ∈ marks, first.1 = second.1 ↔ first.2 = second.2

section Numbering

variable {around inner : BlockMark} {numbers more_numbers : Nat → Prop}
  {positions more_positions : List Nat → Prop} {marks others : List BlockMark}

theorem numbered_around (not_number : ¬ numbers around.1) (not_position : ¬ positions around.2)
    (own : ∀ mark ∈ marks, mark = around) : Numbered around numbers positions marks where
  not_number := not_number
  not_position := not_position
  range mark member := .inl (own mark member)
  apart first left second right := by simp [own first left, own second right]

theorem Numbered.append (first : Numbered around numbers positions marks)
    (second : Numbered around more_numbers more_positions others)
    (no_number : ∀ number, numbers number → ¬ more_numbers number)
    (no_position : ∀ position, positions position → ¬ more_positions position) :
    Numbered around (fun number => numbers number ∨ more_numbers number)
      (fun position => positions position ∨ more_positions position) (marks ++ others) := by
  have across {left right : BlockMark} (here : left ∈ marks) (there : right ∈ others) :
      left.1 = right.1 ↔ left.2 = right.2 := by
    rcases first.range left here with rfl | ⟨number, position⟩ <;>
      rcases second.range right there with rfl | ⟨other_number, other_position⟩
    · simp
    · exact ⟨fun same => absurd (same ▸ other_number) second.not_number,
        fun same => absurd (same ▸ other_position) second.not_position⟩
    · exact ⟨fun same => absurd (same ▸ number) first.not_number,
        fun same => absurd (same ▸ position) first.not_position⟩
    · exact ⟨fun same => absurd (same ▸ other_number) (no_number _ number),
        fun same => absurd (same ▸ other_position) (no_position _ position)⟩
  refine ⟨?_, ?_, ?_, ?_⟩
  · rintro (number | number)
    · exact first.not_number number
    · exact second.not_number number
  · rintro (position | position)
    · exact first.not_position position
    · exact second.not_position position
  · intro mark member
    rcases List.mem_append.mp member with here | there
    · exact (first.range mark here).imp_right fun own => ⟨.inl own.1, .inl own.2⟩
    · exact (second.range mark there).imp_right fun own => ⟨.inr own.1, .inr own.2⟩
  · intro left left_member right right_member
    rcases List.mem_append.mp left_member with left_here | left_there <;>
      rcases List.mem_append.mp right_member with right_here | right_there
    · exact first.apart left left_here right right_here
    · exact across left_here right_there
    · rw [eq_comm, across right_here left_there, eq_comm]
    · exact second.apart left left_there right right_there

theorem Numbered.mono (numbered : Numbered around numbers positions marks)
    (wider : ∀ number, numbers number → more_numbers number)
    (broader : ∀ position, positions position → more_positions position)
    (not_number : ¬ more_numbers around.1) (not_position : ¬ more_positions around.2) :
    Numbered around more_numbers more_positions marks where
  not_number := not_number
  not_position := not_position
  range mark member := (numbered.range mark member).imp_right fun own =>
    ⟨wider mark.1 own.1, broader mark.2 own.2⟩
  apart := numbered.apart

/-- Seen from outside, the block around a walk is a new one. -/
theorem Numbered.enclosed (numbered : Numbered inner numbers positions marks)
    (wider : ∀ number, number = inner.1 ∨ numbers number → more_numbers number)
    (broader : ∀ position, position = inner.2 ∨ positions position → more_positions position)
    (not_number : ¬ more_numbers around.1) (not_position : ¬ more_positions around.2) :
    Numbered around more_numbers more_positions marks where
  not_number := not_number
  not_position := not_position
  range mark member := by
    right
    rcases numbered.range mark member with rfl | ⟨number, position⟩
    · exact ⟨wider _ (.inl rfl), broader _ (.inl rfl)⟩
    · exact ⟨wider _ (.inr number), broader _ (.inr position)⟩
  apart := numbered.apart

end Numbering

/-- Positions behind a position below an address. -/
def Below (address : List Nat) (position : Nat) (other : List Nat) : Prop :=
  ∃ index rest, position ≤ index ∧ other = address ++ index :: rest

/-- Numbers of blocks that a walk took. -/
def Between (out next : Output) (number : Nat) : Prop :=
  out.nextBlock ≤ number ∧ number < next.nextBlock

section Positions

variable {address other : List Nat} {position index : Nat}

theorem below_self (address : List Nat) (position : Nat) :
    Below address position (address ++ [position]) :=
  ⟨position, [], Nat.le_refl _, rfl⟩

theorem Below.length_lt (below : Below address position other) : address.length < other.length := by
  obtain ⟨index, rest, -, rfl⟩ := below
  simp

theorem Below.mono (below : Below address position other) (le : index ≤ position) :
    Below address index other := by
  obtain ⟨own, rest, within, rfl⟩ := below
  exact ⟨own, rest, Nat.le_trans le within, rfl⟩

/-- What is below an item of an address is below the address. -/
theorem Below.outer (below : Below (address ++ [index]) position other) :
    Below address index other := by
  obtain ⟨own, rest, -, rfl⟩ := below
  exact ⟨index, own :: rest, Nat.le_refl _, by simp⟩

theorem not_below_item {rest : List Nat} :
    ¬ Below address (index + 1) (address ++ index :: rest) := by
  rintro ⟨own, others, within, same⟩
  have : index = own := (List.cons.inj (List.append_cancel_left same)).1
  omega

theorem not_below_of_length (short : other.length ≤ address.length) :
    ¬ Below address position other :=
  fun below => absurd below.length_lt (Nat.not_lt.mpr short)

end Positions

/-- A walk adds the rules of entries, and its block numbers tell blocks apart. -/
def Walks (vocabulary : Vocabulary) (around : BlockMark) (numbers : Nat → Prop)
    (positions : List Nat → Prop) (writings : List Writing) (out next : Output) : Prop :=
  out.nextBlock ≤ next.nextBlock ∧ ∃ trace, Traced vocabulary writings out next trace ∧
    Numbered around numbers positions (marks vocabulary trace)

section Walking

variable {vocabulary : Vocabulary} {mode : FlattenMode} {around : BlockMark} {place : Place}
  {block address : List Nat} {key : String} {value : StyleValue} {values : List String}
  {out next : Output}

/-- The block around a walk is numbered before it, and its positions are no longer than the
address. -/
structure Outside (around : BlockMark) (address : List Nat) (out : Output) : Prop where
  number : around.1 < out.nextBlock
  position : around.2.length ≤ address.length

theorem Outside.not_between (outside : Outside around address out) (next : Output) :
    ¬ Between out next around.1 := by
  rintro ⟨later, -⟩
  exact absurd outside.number (Nat.not_lt.mpr later)

theorem Outside.not_below (outside : Outside around address out) (position : Nat) :
    ¬ Below address position around.2 := not_below_of_length outside.position

theorem walks_nil (outside : Outside around address out) (position : Nat) :
    Walks vocabulary around (Between out out) (Below address position) [] out out :=
  ⟨Nat.le_refl _, [], traced_nil out,
    numbered_around (outside.not_between out) (outside.not_below position) (by simp [marks])⟩

theorem traced_singleton {writing : Writing} {rules : List FlatRule} {number : Nat}
    (written : Written vocabulary writing out.nextOrigin rules) :
    Traced vocabulary [writing] out ⟨out.rules ++ rules, out.nextOrigin + 1, number⟩
      [(writing, rules)] where
  writings := rfl
  rules := by simp
  origins := rfl
  written := by simpa using written

theorem walks_declare (outside : Outside (place.block, block) address out)
    (writes : Role.of vocabulary (place.site block) key value = .writes)
    (plain : (Writing.mk address (place.site block) key value).isStatement vocabulary = false)
    (read : (Writing.mk address (place.site block) key value).values vocabulary = .ok values) :
    let writing : Writing := ⟨address, place.site block, key, value⟩
    let next := out.declare place (writing.property vocabulary) values
    Walks vocabulary (place.block, block) (Between out next) (Below address 0)
      [writing] out next := by
  intro writing next
  have unmarked :
      Text.hasPrefix "@" (writing.property vocabulary) = writing.isStatement vocabulary :=
    hasPrefix_property writes address
  have written : Written vocabulary writing out.nextOrigin (values.map fun value =>
      ⟨place.atRules, ", ".intercalate place.selectors, writing.property vocabulary, value,
        out.nextOrigin, place.block⟩) := by
    refine ⟨values, read, ?_⟩
    rw [List.forall₂_map_right_iff, List.forall₂_same]
    intro value member
    refine ⟨⟨rfl, rfl, ?_⟩, rfl⟩
    rw [GlobalRule.isStatement, unmarked, plain]
    rfl
  refine ⟨Nat.le_refl _, _, traced_singleton written, ?_⟩
  apply numbered_around (outside.not_between next) (outside.not_below 0)
  intro mark member
  have plain : writing.isStatement vocabulary = false := plain
  simp only [marks, List.flatMap_cons, plain, List.flatMap_nil, List.append_nil, Bool.false_eq_true,
    if_false, List.map_map] at member
  obtain ⟨value, -, rfl⟩ := List.mem_map.mp member
  rfl

theorem walks_state (outside : Outside around address out) {site : Site}
    (root : site.selectors = [] ∧ site.atRules = [])
    (writes : Role.of vocabulary site key value = .writes)
    (stated : (Writing.mk address site key value).isStatement vocabulary = true)
    (read : (Writing.mk address site key value).values vocabulary = .ok values) :
    Walks vocabulary around (Between out (out.state key values)) (Below address 0)
      [⟨address, site, key, value⟩] out (out.state key values) := by
  have marked : Text.hasPrefix "@" key = true := by
    simpa [Writing.property, stated] using hasPrefix_property writes address
  have written : Written vocabulary ⟨address, site, key, value⟩ out.nextOrigin
      (values.mapIdx fun index value =>
        ⟨[], "", key, value, out.nextOrigin, out.nextBlock + index⟩) := by
    refine ⟨values, read, ?_⟩
    rw [List.forall₂_iff_get]
    refine ⟨by simp, fun index _ _ => ?_⟩
    refine ⟨⟨?_, ?_, ?_⟩, ?_⟩
    · simp [FlatRule.place, Writing.place, Writing.selector, Writing.property, root, stated]
    · simp
    · simp [GlobalRule.isStatement, stated, marked]
    · simp
  refine ⟨Nat.le_add_right _ _, _, traced_singleton written, ?_⟩
  apply numbered_around (outside.not_between _) (outside.not_below 0)
  simp [marks, stated]

variable {numbers more_numbers all_numbers : Nat → Prop}
  {positions more_positions all_positions : List Nat → Prop} {middle : Output}
  {writings others : List Writing} {number count position : Nat}

theorem Walks.append (first : Walks vocabulary around numbers positions writings out middle)
    (second : Walks vocabulary around more_numbers more_positions others middle next)
    (no_number : ∀ number, numbers number → ¬ more_numbers number)
    (no_position : ∀ other, positions other → ¬ more_positions other)
    (wider : ∀ number, numbers number ∨ more_numbers number → all_numbers number)
    (broader : ∀ other, positions other ∨ more_positions other → all_positions other)
    (not_number : ¬ all_numbers around.1) (not_position : ¬ all_positions around.2) :
    Walks vocabulary around all_numbers all_positions (writings ++ others) out next := by
  obtain ⟨low, trace, traced, numbered⟩ := first
  obtain ⟨high, more, traced_more, numbered_more⟩ := second
  refine ⟨Nat.le_trans low high, trace ++ more, traced.trans traced_more, ?_⟩
  rw [marks, List.flatMap_append]
  exact (numbered.append numbered_more no_number no_position).mono wider broader not_number
    not_position

theorem Walks.enclosed {inner : BlockMark}
    (walks : Walks vocabulary inner numbers positions writings out next)
    (wider : ∀ number, number = inner.1 ∨ numbers number → all_numbers number)
    (broader : ∀ other, other = inner.2 ∨ positions other → all_positions other)
    (not_number : ¬ all_numbers around.1) (not_position : ¬ all_positions around.2) :
    Walks vocabulary around all_numbers all_positions writings out next := by
  obtain ⟨le, trace, traced, numbered⟩ := walks
  exact ⟨le, trace, traced, numbered.enclosed wider broader not_number not_position⟩

/-- Entries that follow one another below an address. -/
theorem Walks.cons (outside : Outside around address out)
    (first : Walks vocabulary around (Between out middle) (Below (address ++ [position]) 0) writings
      out middle)
    (second : Walks vocabulary around (Between middle next) (Below address (position + 1)) others
      middle next) :
    Walks vocabulary around (Between out next) (Below address position)
      (writings ++ others) out next := by
  have low := first.1
  have high := second.1
  apply first.append second ?_ ?_ ?_ ?_ (outside.not_between next) (outside.not_below position)
  · rintro number ⟨-, above⟩ ⟨below, -⟩
    omega
  · rintro other ⟨index, rest, -, rfl⟩
    rw [List.append_assoc]
    exact not_below_item
  · rintro number (⟨below, above⟩ | ⟨below, above⟩)
    · exact ⟨below, Nat.lt_of_lt_of_le above high⟩
    · exact ⟨Nat.le_trans low below, above⟩
  · rintro other (below | below)
    · exact below.outer
    · exact below.mono (Nat.le_succ position)

/-- The only block of an entry takes the next number. -/
theorem Walks.only_block (outside : Outside around address out)
    (walks : Walks vocabulary (out.nextBlock, address ++ [0])
      (Between { out with nextBlock := out.nextBlock + 1 } next) (Below (address ++ [0]) 0) writings
      { out with nextBlock := out.nextBlock + 1 } next) :
    Walks vocabulary around (Between out next) (Below address 0) writings out next := by
  have le : out.nextBlock + 1 ≤ next.nextBlock := walks.1
  obtain ⟨-, trace, traced, numbered⟩ := walks
  refine ⟨by omega, trace, traced.of_numbered, ?_⟩
  apply numbered.enclosed ?_ ?_ (outside.not_between next) (outside.not_below 0)
  · rintro number (rfl | ⟨low, high⟩)
    · exact ⟨Nat.le_refl _, le⟩
    · exact ⟨Nat.le_of_succ_le low, high⟩
  · rintro position (rfl | below)
    · exact below_self address 0
    · exact below.outer

/-- The blocks of a list take numbers that were kept for them, and new ones inside. -/
def BlockNumbers (number count : Nat) (out next : Output) (other : Nat) : Prop :=
  (number ≤ other ∧ other < number + count) ∨ Between out next other

/-- The numbers of the blocks of a list lie between that of the block around them and the next
ones. -/
structure Kept (around : BlockMark) (address : List Nat) (number count : Nat) (out : Output) :
    Prop where
  low : around.1 < number
  high : number + count ≤ out.nextBlock
  short : around.2.length ≤ address.length

theorem Kept.not_number (kept : Kept around address number count out) (next : Output) :
    ¬ BlockNumbers number count out next around.1 := by
  have low := kept.low
  have high := kept.high
  rintro (⟨own, -⟩ | ⟨later, -⟩) <;> omega

theorem Kept.not_below (kept : Kept around address number count out) (position : Nat) :
    ¬ Below address position around.2 := not_below_of_length kept.short

theorem walks_no_block (kept : Kept around address number 0 out) (position : Nat) :
    Walks vocabulary around (BlockNumbers number 0 out out) (Below address position) [] out out :=
  ⟨Nat.le_refl _, [], traced_nil out,
    numbered_around (kept.not_number out) (kept.not_below position) (by simp [marks])⟩

/-- An item of a list that is no block takes a position and no number. -/
theorem Walks.cons_other (kept : Kept around address number count out)
    (walks : Walks vocabulary around numbers (Below address (position + 1)) writings out next) :
    Walks vocabulary around numbers (Below address position) writings out next := by
  obtain ⟨le, trace, traced, numbered⟩ := walks
  exact ⟨le, trace, traced, numbered.mono (fun _ within => within)
    (fun _ below => below.mono (Nat.le_succ position)) numbered.not_number
      (kept.not_below position)⟩

theorem Walks.cons_block (kept : Kept around address number (count + 1) out)
    (first : Walks vocabulary (number, address ++ [position]) (Between out middle)
      (Below (address ++ [position]) 0) writings out middle)
    (second : Walks vocabulary around (BlockNumbers (number + 1) count middle next)
      (Below address (position + 1)) others middle next) :
    Walks vocabulary around (BlockNumbers number (count + 1) out next) (Below address position)
      (writings ++ others) out next := by
  have low := first.1
  have high := second.1
  have before := kept.low
  have after := kept.high
  have seen : Walks vocabulary around (BlockNumbers number 1 out middle)
      (fun other => ∃ rest, other = address ++ position :: rest) writings out middle := by
    apply first.enclosed
    · rintro other (rfl | between)
      · exact .inl ⟨Nat.le_refl _, Nat.lt_succ_self _⟩
      · exact .inr between
    · rintro other (rfl | ⟨index, rest, -, rfl⟩)
      · exact ⟨[], rfl⟩
      · exact ⟨index :: rest, by simp⟩
    · rintro (⟨own, -⟩ | ⟨later, -⟩) <;> omega
    · rintro ⟨rest, same⟩
      exact kept.not_below position ⟨position, rest, Nat.le_refl _, same⟩
  apply seen.append second ?_ ?_ ?_ ?_ (kept.not_number next) (kept.not_below position)
  · rintro other (⟨above, below⟩ | ⟨above, below⟩) (⟨least, most⟩ | ⟨least, most⟩) <;> omega
  · rintro other ⟨rest, rfl⟩
    exact not_below_item
  · rintro other ((⟨above, below⟩ | ⟨above, below⟩) | (⟨above, below⟩ | ⟨above, below⟩))
    · exact .inl ⟨above, by omega⟩
    · exact .inr ⟨above, by omega⟩
    · exact .inl ⟨by omega, by omega⟩
    · exact .inr ⟨by omega, below⟩
  · rintro other (⟨rest, rfl⟩ | below)
    · exact ⟨position, rest, Nat.le_refl _, rfl⟩
    · exact below.mono (Nat.le_succ position)

theorem Walks.blocks (outside : Outside around address out)
    (walks : Walks vocabulary around
      (BlockNumbers out.nextBlock count { out with nextBlock := out.nextBlock + count } next)
      (Below address 0) writings { out with nextBlock := out.nextBlock + count } next) :
    Walks vocabulary around (Between out next) (Below address 0) writings out next := by
  have le : out.nextBlock + count ≤ next.nextBlock := walks.1
  obtain ⟨-, trace, traced, numbered⟩ := walks
  refine ⟨by omega, trace, traced.of_numbered, ?_⟩
  apply numbered.mono ?_ (fun _ below => below) (outside.not_between next) (outside.not_below 0)
  rintro number (⟨low, high⟩ | ⟨low, high⟩)
  · exact ⟨low, by omega⟩
  · exact ⟨Nat.le_trans (Nat.le_add_right _ _) low, high⟩

end Walking

/-- An expander whose walks write what a lister lists. -/
def Lists (vocabulary : Vocabulary) (expand : Expander) (list : Lister) : Prop :=
  ∀ utility node {place : Place} {block address : List Nat} {out next : Output},
    expand utility place node out = .ok next → Outside (place.block, block) address out →
      Walks vocabulary (place.block, block) (Between out next) (Below address 0)
        (list (place.site block) address node) out next

section Listing

variable {vocabulary : Vocabulary} {mode : FlattenMode} {expand : Expander} {list : Lister}

theorem writingsOfBlocks_cons_of_not_node {item : StyleValue} (skipped : item.isNode = false)
    (site : Site) (address : List Nat) (position : Nat) (rest : List StyleValue) :
    writingsOfBlocks vocabulary list site address position (item :: rest) =
      writingsOfBlocks vocabulary list site address (position + 1) rest := by
  cases item with
  | node entries => simp [StyleValue.isNode] at skipped
  | text content => simp [writingsOfBlocks]
  | number value => simp [writingsOfBlocks]
  | list items => simp [writingsOfBlocks]

mutual

theorem entries_walks (lists : Lists vocabulary expand list) (items : StyleNode) (position : Nat)
    {place : Place} {block address : List Nat} {out next : Output}
    (walked : entries vocabulary mode expand place items out = .ok next)
    (outside : Outside (place.block, block) address out) :
    Walks vocabulary (place.block, block) (Between out next) (Below address position)
      (writingsOfEntries vocabulary list (place.site block) address position items) out next := by
  match items with
  | [] =>
    rw [entries] at walked
    obtain rfl := Except.ok.inj walked
    rw [writingsOfEntries]
    exact walks_nil outside position
  | (key, value) :: rest =>
    rw [entries] at walked
    obtain ⟨middle, own, others⟩ := bind_eq_ok.mp walked
    have inside : Outside (place.block, block) (address ++ [position]) out :=
      ⟨outside.number, by simpa using Nat.le_succ_of_le outside.position⟩
    have first := entry_walks lists key value own inside
    have later : Outside (place.block, block) address middle :=
      ⟨Nat.lt_of_lt_of_le outside.number first.1, outside.position⟩
    rw [writingsOfEntries]
    exact first.cons outside (entries_walks lists rest (position + 1) others later)

theorem entry_walks (lists : Lists vocabulary expand list) (key : String) (value : StyleValue)
    {place : Place} {block address : List Nat} {out next : Output}
    (walked : entry vocabulary mode expand place key value out = .ok next)
    (outside : Outside (place.block, block) address out) :
    Walks vocabulary (place.block, block) (Between out next) (Below address 0)
      (writingsOfEntry vocabulary list (place.site block) address key value) out next := by
  rw [entry] at walked
  cases stepped : step vocabulary mode place key value out with
  | error fault => simp [stepped] at walked
  | ok taken =>
    have comes_to := step_of_role block address stepped
    rw [stepped] at walked
    rw [writingsOfEntry]
    cases role : Role.of vocabulary (place.site block) key value with
    | writes =>
      simp only [role] at comes_to
      obtain ⟨values, read, written⟩ := comes_to
      split at written
      · next stated =>
        obtain ⟨rfl, root⟩ := written
        obtain rfl := Except.ok.inj walked
        exact walks_state outside root role stated read
      · next plain =>
        subst written
        obtain rfl := Except.ok.inj walked
        exact walks_declare outside role (eq_false_of_ne_true plain) read
    | expands node =>
      simp only [role] at comes_to
      subst comes_to
      exact lists key node walked outside
    | opens inner =>
      simp only [role] at comes_to
      obtain ⟨nested, rfl, rfl⟩ := comes_to
      match value with
      | .node entries =>
        apply Walks.only_block outside
        exact entries_walks lists entries 0 walked ⟨Nat.lt_succ_self _, Nat.le_refl _⟩
      | .list items =>
        apply Walks.blocks outside
        exact blocks_walks lists items walked ⟨outside.number, Nat.le_refl _, outside.position⟩
      | .text _ =>
        obtain rfl := Except.ok.inj walked
        exact walks_nil outside 0
      | .number _ =>
        obtain rfl := Except.ok.inj walked
        exact walks_nil outside 0
    | nothing => simp [role] at comes_to

theorem blocks_walks (lists : Lists vocabulary expand list) (items : List StyleValue)
    {place : Place} {around : BlockMark} {block address : List Nat} {number position : Nat}
    {out next : Output} (walked : blocks vocabulary mode expand place number items out = .ok next)
    (kept : Kept around address number (items.filter StyleValue.isNode).length out) :
    Walks vocabulary around (BlockNumbers number (items.filter StyleValue.isNode).length out next)
      (Below address position)
      (writingsOfBlocks vocabulary list (place.site block) address position items) out next := by
  match items with
  | [] =>
    rw [blocks] at walked
    obtain rfl := Except.ok.inj walked
    exact walks_no_block kept position
  | .node entries :: rest =>
    rw [blocks] at walked
    obtain ⟨middle, own, others⟩ := bind_eq_ok.mp walked
    have low := kept.low
    have high : number + ((rest.filter StyleValue.isNode).length + 1) ≤ out.nextBlock := kept.high
    have outside : Outside (number, address ++ [position]) (address ++ [position]) out :=
      ⟨by change number < _; omega, Nat.le_refl _⟩
    have first := entries_walks lists entries 0 own outside
    have later :
        Kept around address (number + 1) (rest.filter StyleValue.isNode).length middle := by
      have le := first.1
      exact ⟨by omega, by omega, kept.short⟩
    exact Walks.cons_block kept first (blocks_walks lists rest others later)
  | .list _ :: rest =>
    rw [blocks_cons_of_not_node rfl] at walked
    rw [writingsOfBlocks_cons_of_not_node rfl]
    exact (blocks_walks lists rest walked kept).cons_other kept
  | .text _ :: rest =>
    rw [blocks_cons_of_not_node rfl] at walked
    rw [writingsOfBlocks_cons_of_not_node rfl]
    exact (blocks_walks lists rest walked kept).cons_other kept
  | .number _ :: rest =>
    rw [blocks_cons_of_not_node rfl] at walked
    rw [writingsOfBlocks_cons_of_not_node rfl]
    exact (blocks_walks lists rest walked kept).cons_other kept

end

theorem lists_expansion (remaining : Nat) :
    Lists vocabulary (expansion vocabulary mode remaining)
      (writingsOfExpansion vocabulary remaining) := by
  induction remaining with
  | zero =>
    intro utility node place block address out next walked outside
    cases walked
  | succ remaining ih =>
    intro utility node place block address out next walked outside
    exact entries_walks ih node 0 walked outside

end Listing

/-- Flattening writes the rules of the entries that write, in their order. -/
theorem flatten_walks {vocabulary : Vocabulary} {mode : FlattenMode} {node : StyleNode}
    {rules : List FlatRule} (flat : flatten vocabulary mode node = .ok rules) :
    ∃ trace : Trace, trace.map (·.1) = writings vocabulary mode node ∧ rules = trace.flatMap (·.2) ∧
      (∀ own ∈ trace.zipIdx, Written vocabulary own.1.1 own.2 own.1.2) ∧
      ∀ first ∈ marks vocabulary trace, ∀ second ∈ marks vocabulary trace,
        first.1 = second.1 ↔ first.2 = second.2 := by
  obtain ⟨out, walked, rfl⟩ := flatten_eq_ok.mp flat
  have outside : Outside (0, []) [] Output.start := ⟨Nat.one_pos, Nat.le_refl _⟩
  obtain ⟨-, trace, traced, numbered⟩ :=
    entries_walks (lists_expansion Utility.depthLimit) node 0 walked outside
  exact ⟨trace, traced.writings, traced.rules, traced.written, numbered.apart⟩

end Flatten

end AtomicCss
