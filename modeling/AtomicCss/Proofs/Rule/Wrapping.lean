import AtomicCss.Proofs.Rule.Flattening

/-!
What an at-rule makes of the blocks in it.

In a scoped style an at-rule changes nothing of what is written in its blocks: a walk inside further
at-rules succeeds only where the walk without them does, and writes the same rules, inside those
at-rules.
-/

namespace AtomicCss

section Results

variable {Fail First Second First' Second' : Type}

/-- Every success of the second result is one of the first, related to it. -/
def Reflects (Related : First → Second → Prop) (first : Except Fail First)
    (second : Except Fail Second) : Prop :=
  ∀ found, second = .ok found → ∃ own, first = .ok own ∧ Related own found

theorem Reflects.bind {Before : First → Second → Prop} {After : First' → Second' → Prop}
    {first : Except Fail First} {second : Except Fail Second} {next : First → Except Fail First'}
    {other : Second → Except Fail Second'} (reflects : Reflects Before first second)
    (each : ∀ {left right}, Before left right → Reflects After (next left) (other right)) :
    Reflects After (first >>= next) (second >>= other) := by
  intro found taken
  obtain ⟨middle, own, rest⟩ := bind_eq_ok.mp taken
  obtain ⟨before, reflected, related⟩ := reflects middle own
  obtain ⟨after, last, related⟩ := each related found rest
  exact ⟨after, bind_eq_ok.mpr ⟨before, reflected, last⟩, related⟩

theorem Reflects.ok {Related : First → Second → Prop} {first : First} {second : Second}
    (related : Related first second) :
    Reflects Related (.ok first : Except Fail First) (.ok second : Except Fail Second) := by
  intro found same
  obtain rfl := Except.ok.inj same
  exact ⟨first, rfl, related⟩

theorem Reflects.same (result : Except Fail First) : Reflects Eq result result :=
  fun found same => ⟨found, same, rfl⟩

theorem Reflects.error {Related : First → Second → Prop} (first : Except Fail First)
    (error : Fail) :
    Reflects Related first (.error error : Except Fail Second) := by
  intro found same
  cases same

end Results

namespace Flatten

/-- The second rule is the first inside further at-rules, from an entry with a number higher by
`shift` and in any block. -/
def Wrapped (outer : List String) (shift : Nat) (rule wrapped : FlatRule) : Prop :=
  wrapped = { rule with
    atRules := outer ++ rule.atRules, origin := rule.origin + shift, block := wrapped.block }

/-- The second place is the first inside further at-rules. -/
def Place.Around (outer : List String) (first second : Place) : Prop :=
  ∃ block path, second = { first with atRules := outer ++ first.atRules, block, path }

/-- The second output holds the rules of the first, wrapped, behind earlier rules. -/
def Wraps (outer : List String) (shift : Nat) (earlier : List FlatRule) (out other : Output) :
    Prop :=
  other.nextOrigin = out.nextOrigin + shift ∧
    ∃ wrapped, other.rules = earlier ++ wrapped ∧
      List.Forall₂ (Wrapped outer shift) out.rules wrapped

/-- What an entry comes to inside further at-rules. -/
inductive Step.Around (outer : List String) (Related : Output → Output → Prop) :
    Step → Step → Prop where
  | written {out other} : Related out other → Around outer Related (.written out) (.written other)
  | expansion (utility) {first second : Place} (node) : first.Around outer second →
      Around outer Related (.expansion utility first node) (.expansion utility second node)
  | blocks {first second : Place} : first.Around outer second →
      Around outer Related (.blocks first) (.blocks second)

variable {outer : List String} {shift : Nat} {earlier : List FlatRule} {vocabulary : Vocabulary}
  {first second : Place} {out other : Output}

theorem wraps_declare (places : first.Around outer second)
    (wraps : Wraps outer shift earlier out other) (property : String) (values : List String) :
    Wraps outer shift earlier (out.declare first property values)
      (other.declare second property values) := by
  obtain ⟨block, path, rfl⟩ := places
  obtain ⟨origin, before, rules, wrapped⟩ := wraps
  have numbered : other.nextOrigin + 1 = out.nextOrigin + 1 + shift := by omega
  refine ⟨numbered, before ++ values.map fun value =>
    ⟨outer ++ first.atRules, ", ".intercalate first.selectors, property, value,
      other.nextOrigin, block⟩,
    ?_, List.rel_append wrapped ?_⟩
  · simp only [Output.declare, rules, List.append_assoc]
  · simp [List.forall₂_map_left_iff, List.forall₂_map_right_iff, List.forall₂_same, Wrapped, origin]

theorem declare_around (vocabulary : Vocabulary) (places : first.Around outer second)
    (wraps : Wraps outer shift earlier out other) (key : String) (value : StyleValue) :
    Reflects (Step.Around outer (Wraps outer shift earlier))
      (declare vocabulary first key value out)
      (declare vocabulary second key value other) := by
  have written (property : String) (values : List String) :
      Step.Around outer (Wraps outer shift earlier) (.written (out.declare first property values))
        (.written (other.declare second property values)) :=
    .written (wraps_declare places wraps property values)
  obtain ⟨block, path, rfl⟩ := places
  unfold declare
  split
  · exact .error _ _
  · split
    · exact .error _ _
    · exact (Reflects.same _).bind fun same => .ok (same ▸ written _ _)

theorem step_around (vocabulary : Vocabulary) (places : first.Around outer second)
    (wraps : Wraps outer shift earlier out other) (key : String) (value : StyleValue) :
    Reflects (Step.Around outer (Wraps outer shift earlier))
      (step vocabulary .scoped first key value out)
      (step vocabulary .scoped second key value other) := by
  have declared := declare_around vocabulary places wraps key value
  obtain ⟨block, path, rfl⟩ := places
  unfold step
  split
  · exact .error _ _
  · cases KeyKind.of vocabulary.utilities key value with
    | property | localToken => exact declared
    | utility =>
      cases vocabulary.utilities.get? key with
      | none => exact .ok (.written wraps)
      | some utility =>
        dsimp only
        split
        · exact .ok (.expansion key _ ⟨block, path, rfl⟩)
        · exact .error _ _
    | pseudoSelector | descendantSelector =>
      cases Selector.nest? first.selectors key with
      | none => exact .error _ _
      | some selectors => exact .ok (.blocks ⟨block, path, rfl⟩)
    | atRule => exact .ok (.blocks ⟨block, path, by simp⟩)
    | atStatement => exact .error _ _

/-- An expander that reflects walks inside further at-rules. -/
def Mirrors (outer : List String) (expand : Expander) : Prop :=
  ∀ utility node {first second : Place} {shift : Nat} {earlier : List FlatRule}
    {out other : Output}, first.Around outer second → Wraps outer shift earlier out other →
      Reflects (Wraps outer shift earlier) (expand utility first node out)
        (expand utility second node other)

variable {expand : Expander}

mutual

theorem entries_around (mirrors : Mirrors outer expand) (items : List (String × StyleValue))
    {first second : Place} {out other : Output} (places : first.Around outer second)
    (wraps : Wraps outer shift earlier out other) :
    Reflects (Wraps outer shift earlier) (entries vocabulary .scoped expand first items out)
      (entries vocabulary .scoped expand second items other) := by
  match items with
  | [] =>
    rw [entries, entries]
    exact .ok wraps
  | (key, value) :: rest =>
    rw [entries, entries]
    have inner : Place.Around outer { first with path := keyPath first.path key }
        { second with path := keyPath second.path key } := by
      obtain ⟨block, path, rfl⟩ := places
      exact ⟨block, _, rfl⟩
    exact (entry_around mirrors key value inner wraps).bind fun wraps =>
      entries_around mirrors rest places wraps

theorem entry_around (mirrors : Mirrors outer expand) (key : String) (value : StyleValue)
    {first second : Place} {out other : Output} (places : first.Around outer second)
    (wraps : Wraps outer shift earlier out other) :
    Reflects (Wraps outer shift earlier) (entry vocabulary .scoped expand first key value out)
      (entry vocabulary .scoped expand second key value other) := by
  have stepped := step_around vocabulary places wraps key value
  rw [entry, entry]
  cases reached : step vocabulary .scoped second key value other with
  | error fault => exact .error _ _
  | ok taken =>
    obtain ⟨own, reflected, around⟩ := stepped taken reached
    rw [reflected]
    have origin := wraps.1
    cases around with
    | written wraps => exact .ok wraps
    | expansion utility node inner => exact mirrors utility node inner wraps
    | @blocks inner nested within =>
      have numbered (number next : Nat) :
          Place.Around outer { inner with block := number } { nested with block := next } := by
        obtain ⟨block, path, rfl⟩ := within
        exact ⟨next, path, rfl⟩
      match value with
      | .node block => exact entries_around mirrors block (numbered _ _) wraps
      | .list items => exact blocks_around mirrors items within _ _ wraps
      | .text _ => exact .ok wraps
      | .number _ => exact .ok wraps

theorem blocks_around (mirrors : Mirrors outer expand) (items : List StyleValue)
    {first second : Place} {out other : Output} (places : first.Around outer second)
    (number next : Nat) (wraps : Wraps outer shift earlier out other) :
    Reflects (Wraps outer shift earlier) (blocks vocabulary .scoped expand first number items out)
      (blocks vocabulary .scoped expand second next items other) := by
  match items with
  | [] =>
    rw [blocks, blocks]
    exact .ok wraps
  | .node block :: rest =>
    rw [blocks, blocks]
    have numbered :
        Place.Around outer { first with block := number } { second with block := next } := by
      obtain ⟨block, path, rfl⟩ := places
      exact ⟨next, path, rfl⟩
    exact (entries_around mirrors block numbered wraps).bind fun wraps =>
      blocks_around mirrors rest places _ _ wraps
  | .list _ :: rest =>
    rw [blocks_cons_of_not_node rfl, blocks_cons_of_not_node rfl]
    exact blocks_around mirrors rest places _ _ wraps
  | .text _ :: rest =>
    rw [blocks_cons_of_not_node rfl, blocks_cons_of_not_node rfl]
    exact blocks_around mirrors rest places _ _ wraps
  | .number _ :: rest =>
    rw [blocks_cons_of_not_node rfl, blocks_cons_of_not_node rfl]
    exact blocks_around mirrors rest places _ _ wraps

end

theorem mirrors_expansion (outer : List String) (remaining : Nat) :
    Mirrors outer (expansion vocabulary .scoped remaining) := by
  induction remaining with
  | zero =>
    intro utility node first second shift earlier out other places wraps
    exact .error _ _
  | succ remaining ih =>
    intro utility node first second shift earlier out other places wraps
    exact entries_around ih node places wraps

/-- The rules of a block alone were written inside at-rules. -/
def WrittenInside (vocabulary : Vocabulary) (outer : List String) (block : StyleNode)
    (written : List FlatRule) : Prop :=
  ∃ rules shift, flatten vocabulary .scoped block = .ok rules ∧
    List.Forall₂ (Wrapped outer shift) rules written

/-- A place inside at-rules that is the owner's otherwise. -/
structure Place.Inside (outer : List String) (place : Place) : Prop where
  selectors : place.selectors = ["&"]
  atRules : place.atRules = outer
  bare : place.bare = false

theorem entries_inside (block : StyleNode) {place : Place} (inside : place.Inside outer)
    {out next : Output}
    (walked : entries vocabulary .scoped
      (expansion vocabulary .scoped Utility.depthLimit) place block out = .ok next) :
    ∃ written, WrittenInside vocabulary outer block written ∧
      next.rules = out.rules ++ written := by
  obtain ⟨selectors, atRules, number, bare, path⟩ := place
  obtain ⟨rfl, rfl, rfl⟩ := inside
  have places : Place.Around atRules (rootPlace .scoped) ⟨["&"], atRules, number, false, path⟩ :=
    ⟨number, path, by simp [rootPlace]⟩
  have wraps : Wraps atRules out.nextOrigin out.rules .start out :=
    ⟨(Nat.zero_add _).symm, [], by simp, .nil⟩
  obtain ⟨own, flat, -, written, rules, wrapped⟩ :=
    entries_around (mirrors_expansion atRules _) block places wraps next walked
  exact ⟨written, ⟨own.rules, out.nextOrigin, flatten_eq_ok.mpr ⟨own, flat, rfl⟩, wrapped⟩, rules⟩

theorem blocks_inside (items : List StyleValue) {place : Place} (inside : place.Inside outer)
    {number : Nat} {out next : Output}
    (walked : blocks vocabulary .scoped (expansion vocabulary .scoped Utility.depthLimit)
      place number items out = .ok next) :
    ∃ parts,
      List.Forall₂ (WrittenInside vocabulary outer) (items.filterMap StyleValue.node?) parts ∧
      next.rules = out.rules ++ parts.flatten := by
  induction items generalizing number out with
  | nil =>
    rw [blocks] at walked
    obtain rfl := Except.ok.inj walked
    exact ⟨[], .nil, by simp⟩
  | cons item rest ih =>
    cases item with
    | node block =>
      rw [blocks] at walked
      obtain ⟨middle, own, others⟩ := bind_eq_ok.mp walked
      have at_number : Place.Inside outer { place with block := number } :=
        ⟨inside.selectors, inside.atRules, inside.bare⟩
      obtain ⟨written, here, rules⟩ := entries_inside block at_number own
      obtain ⟨parts, there, last⟩ := ih others
      exact ⟨written :: parts, .cons here there,
        by rw [last, rules, List.flatten_cons, List.append_assoc]⟩
    | text _ =>
      rw [blocks_cons_of_not_node rfl] at walked
      exact ih walked
    | number _ =>
      rw [blocks_cons_of_not_node rfl] at walked
      exact ih walked
    | list _ =>
      rw [blocks_cons_of_not_node rfl] at walked
      exact ih walked

theorem entry_inside {key : String} {value : StyleValue} (marked : Text.hasPrefix "@" key = true)
    (free : vocabulary.utilities.get? key = none) {path : String} {out next : Output}
    (walked : entry vocabulary .scoped (expansion vocabulary .scoped Utility.depthLimit)
      { rootPlace .scoped with path } key value out = .ok next) :
    ∃ parts,
      List.Forall₂ (WrittenInside vocabulary [AtRule.ofKey vocabulary.breakpoints key]) value.blocks
        parts ∧
      next.rules = out.rules ++ parts.flatten := by
  rw [entry, step_marked marked free] at walked
  cases block : value.isBlock with
  | false => simp [block] at walked
  | true =>
    simp only [block, if_true] at walked
    cases value with
    | node entries =>
      obtain ⟨written, inside, rules⟩ := entries_inside entries ⟨rfl, rfl, rfl⟩ walked
      exact ⟨[written], .cons inside .nil, by simpa using rules⟩
    | list items => exact blocks_inside items ⟨rfl, rfl, rfl⟩ walked
    | text _ => cases block
    | number _ => cases block

/-- A walk adds rules behind those that there are. -/
theorem exists_written_of_walk {node : StyleNode} {out next : Output}
    (walked : walk vocabulary .scoped node out = .ok next) :
    ∃ written, next.rules = out.rules ++ written := by
  have behind : Agree _ (walk vocabulary .scoped node .start) (walk vocabulary .scoped node out) :=
    walk_alike (tracks_behind out.nextOrigin out.rules) node
      ⟨by simp [Output.start], [], by simp, .nil⟩
  rw [walked] at behind
  generalize walk vocabulary .scoped node .start = alone at behind
  cases behind with
  | ok related =>
    obtain ⟨-, written, rules, -⟩ := related
    exact ⟨written, rules⟩

end Flatten

open Flatten

/-- An at-rule of a style writes the rules of its blocks, one block after the other, inside the
at-rule. -/
theorem flatten_atRule {vocabulary : Vocabulary} {key : String} {value : StyleValue}
    {node : StyleNode} {rules : List FlatRule} (marked : Text.hasPrefix "@" key = true)
    (free : vocabulary.utilities.get? key = none) (member : (key, value) ∈ node)
    (flat : flatten vocabulary .scoped node = .ok rules) :
    ∃ before parts after, rules = before ++ parts.flatten ++ after ∧
      List.Forall₂ (WrittenInside vocabulary [AtRule.ofKey vocabulary.breakpoints key]) value.blocks
        parts := by
  obtain ⟨out, walked, rfl⟩ := flatten_eq_ok.mp flat
  obtain ⟨front, back, rfl⟩ := List.append_of_mem member
  rw [walk_append] at walked
  obtain ⟨reached, -, walked⟩ := bind_eq_ok.mp walked
  obtain ⟨next, own, others⟩ := bind_eq_ok.mp walked
  obtain ⟨parts, inside, rules⟩ := entry_inside marked free own
  obtain ⟨written, last⟩ := exists_written_of_walk others
  exact ⟨reached.rules, parts, written, by rw [last, rules], inside⟩

end AtomicCss
