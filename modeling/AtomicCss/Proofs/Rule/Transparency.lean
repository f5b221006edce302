import AtomicCss.Proofs.NameMap
import AtomicCss.Proofs.Rule.Acceptance

/-!
Utilities written out.

The expansion of a utility is walked at the place of its key, after the entries before it and before
those behind it, so an object may as well hold the entries of the expansion. What is lost by writing
them out is a longer path in error messages, and one of the expansions that may lie inside one
another.
-/

namespace AtomicCss

/-- The second object is the first with one key of a utility written out, at its root or in a block
of a selector or an at-rule. -/
inductive WrittenOut (utilities : NameMap Utility) : StyleNode → StyleNode → Prop where
  | here (front back) {key value utility} : utilities.get? key = some utility →
      WrittenOut utilities (front ++ (key, value) :: back) (front ++ utility.expand value ++ back)
  | block (front back) {key block other} : utilities.get? key = none →
      WrittenOut utilities block other →
      WrittenOut utilities (front ++ (key, .node block) :: back)
        (front ++ (key, .node other) :: back)
  | item (front back) {key block other} (earlier later : List StyleNode) :
      utilities.get? key = none →
      WrittenOut utilities block other →
      WrittenOut utilities (front ++ (key, .list ((earlier ++ block :: later).map .node)) :: back)
        (front ++ (key, .list ((earlier ++ other :: later).map .node)) :: back)

namespace Flatten

variable {vocabulary : Vocabulary} {mode : FlattenMode} {expand more : Expander}

def Step.atPath (path : String) : Step → Step
  | .written out => .written out
  | .expansion utility place node => .expansion utility { place with path } node
  | .blocks place => .blocks { place with path }

theorem step_atPath (vocabulary : Vocabulary) (mode : FlattenMode) (place : Place)
    (path key : String) (value : StyleValue) (out : Output) :
    step vocabulary mode { place with path } key value out =
      (step vocabulary mode place key value out).map (Step.atPath path) := by
  unfold step declare
  split
  · rfl
  · cases KeyKind.of vocabulary.utilities key value with
    | property | localToken =>
      dsimp only
      split
      · rfl
      · split
        · rfl
        · cases declarationValues vocabulary.scope _ _ value <;> rfl
    | utility =>
      dsimp only
      split
      · rfl
      · split <;> rfl
    | pseudoSelector | descendantSelector =>
      dsimp only
      split <;> rfl
    | atRule => rfl
    | atStatement =>
      dsimp only
      split
      · rfl
      · cases statementValues vocabulary.scope key value <;> rfl

/-- The second expander finds all that the first finds, whatever the path. -/
def Covers (expand more : Expander) : Prop :=
  ∀ utility node place path out next, expand utility place node out = .ok next →
    more utility { place with path } node out = .ok next

mutual

theorem entries_covers (covers : Covers expand more) (items : List (String × StyleValue))
    {place : Place} (path : String) {out next : Output}
    (walked : entries vocabulary mode expand place items out = .ok next) :
    entries vocabulary mode more { place with path } items out = .ok next := by
  match items with
  | [] => rwa [entries] at walked ⊢
  | (key, value) :: rest =>
    rw [entries] at walked ⊢
    obtain ⟨middle, own, others⟩ := bind_eq_ok.mp walked
    have own_covered := entry_covers covers key value (keyPath path key) own
    exact bind_eq_ok.mpr ⟨middle, own_covered, entries_covers covers rest path others⟩

theorem entry_covers (covers : Covers expand more) (key : String) (value : StyleValue)
    {place : Place} (path : String) {out next : Output}
    (walked : entry vocabulary mode expand place key value out = .ok next) :
    entry vocabulary mode more { place with path } key value out = .ok next := by
  rw [entry] at walked ⊢
  rw [step_atPath]
  cases stepped : step vocabulary mode place key value out with
  | error fault => simp [stepped] at walked
  | ok taken =>
    simp only [stepped, Except.map] at walked ⊢
    cases taken with
    | written out => exact walked
    | expansion utility inner node => exact covers utility node inner path out next walked
    | blocks inner =>
      match value with
      | .node block => exact entries_covers covers block path walked
      | .list items => exact blocks_covers covers items path walked
      | .text _ => exact walked
      | .number _ => exact walked

theorem blocks_covers (covers : Covers expand more) (items : List StyleValue) {place : Place}
    (path : String) {number : Nat} {out next : Output}
    (walked : blocks vocabulary mode expand place number items out = .ok next) :
    blocks vocabulary mode more { place with path } number items out = .ok next := by
  match items with
  | [] => rwa [blocks] at walked ⊢
  | .node block :: rest =>
    rw [blocks] at walked ⊢
    obtain ⟨middle, own, others⟩ := bind_eq_ok.mp walked
    have own_covered := entries_covers covers block path own
    exact bind_eq_ok.mpr ⟨middle, own_covered, blocks_covers covers rest path others⟩
  | .list _ :: rest =>
    rw [blocks_cons_of_not_node rfl] at walked ⊢
    exact blocks_covers covers rest path walked
  | .text _ :: rest =>
    rw [blocks_cons_of_not_node rfl] at walked ⊢
    exact blocks_covers covers rest path walked
  | .number _ :: rest =>
    rw [blocks_cons_of_not_node rfl] at walked ⊢
    exact blocks_covers covers rest path walked

end

/-- What is found with some expansions left is found with more of them. -/
theorem covers_expansion (remaining : Nat) :
    Covers (expansion vocabulary mode remaining) (expansion vocabulary mode (remaining + 1)) := by
  induction remaining with
  | zero =>
    intro utility node place path out next walked
    cases walked
  | succ remaining ih =>
    intro utility node place path out next walked
    exact entries_covers ih node path walked

theorem not_localToken {key : String} (undollared : Text.hasPrefix "$" key = false) :
    Text.hasPrefix "$$" key = false := by
  cases starts : key.toList with
  | nil => simp [Text.hasPrefix, starts]
  | cons c rest =>
    have first : '$' ≠ c := by simpa [Text.hasPrefix, starts, List.isPrefixOf] using undollared
    simp [Text.hasPrefix, starts, List.isPrefixOf, first]

/-- The key of a utility comes to the expansion of its value. -/
theorem entry_utility {place : Place} {key : String} {utility : Utility} {value : StyleValue}
    (known : vocabulary.utilities.get? key = some utility) (plain : Text.hasPrefix "$$" key = false)
    {out next : Output} (walked : entry vocabulary mode expand place key value out = .ok next) :
    expand key place (utility.expand value) out = .ok next := by
  have kind : KeyKind.of vocabulary.utilities key value = .utility := by
    simp [KeyKind.of, plain, NameMap.contains, known]
  rw [entry, step] at walked
  by_cases blank : Text.allBlank key = true
  · simp [blank] at walked
  · by_cases accepts : utility.accepts value = true
    · simpa [blank, kind, known, accepts] using walked
    · simp [blank, kind, known, accepts] at walked

/-- A key that names no utility opens its blocks alike, whatever is in them. -/
theorem step_of_block {place : Place} {key : String} (free : vocabulary.utilities.get? key = none)
    {value : StyleValue} (block : value.isBlock = true) {out : Output} {taken : Step}
    (stepped : step vocabulary mode place key value out = .ok taken) :
    ∃ nested, taken = .blocks nested ∧ ∀ other : StyleValue, other.isBlock = true →
      step vocabulary mode place key other out = .ok (.blocks nested) := by
  have same {other : StyleValue} (opens : other.isBlock = true) :
      KeyKind.of vocabulary.utilities key other = KeyKind.of vocabulary.utilities key value := by
    simp only [KeyKind.of, opens, block]
  unfold step at stepped ⊢
  split at stepped
  · cases stepped
  · next shown =>
    simp +contextual only [same, if_neg shown]
    cases kind : KeyKind.of vocabulary.utilities key value with
    | property | localToken =>
      simp only [kind] at stepped
      exact absurd stepped (declare_block block _ _ _ _)
    | utility =>
      obtain ⟨utility, known⟩ := known_of_utility kind
      cases free.symm.trans known
    | pseudoSelector | descendantSelector =>
      simp only [kind] at stepped ⊢
      cases nested : Selector.nest? place.selectors key with
      | none => simp [nested] at stepped
      | some selectors =>
        simp only [nested, Except.ok.injEq] at stepped
        exact ⟨_, stepped.symm, fun _ _ => rfl⟩
    | atRule =>
      simp only [kind, Except.ok.injEq] at stepped
      exact ⟨_, stepped.symm, fun _ _ => rfl⟩
    | atStatement =>
      simp only [KeyKind.of, block, if_true] at kind
      repeat' split at kind
      all_goals cases kind

theorem step_block {place : Place} {key : String} (free : vocabulary.utilities.get? key = none)
    {value : StyleValue} (block : value.isBlock = true) {out next : Output}
    (walked : entry vocabulary mode expand place key value out = .ok next) :
    ∃ nested, ∀ other : StyleValue, other.isBlock = true →
      step vocabulary mode place key other out = .ok (.blocks nested) := by
  rw [entry] at walked
  cases stepped : step vocabulary mode place key value out with
  | error fault => simp [stepped] at walked
  | ok taken =>
    obtain ⟨nested, -, opens⟩ := step_of_block free block stepped
    exact ⟨nested, opens⟩

/-- Blocks under a key are walked alike if one of them is replaced by another that is. -/
theorem blocks_item {first second : StyleNode}
    (alike : ∀ place out next, entries vocabulary mode expand place first out = .ok next →
      entries vocabulary mode expand place second out = .ok next)
    (earlier later : List StyleNode) {place : Place} {number : Nat} {out next : Output}
    (walked : blocks vocabulary mode expand place number
      ((earlier ++ first :: later).map .node) out =
      .ok next) :
    blocks vocabulary mode expand place number ((earlier ++ second :: later).map .node) out =
      .ok next := by
  induction earlier generalizing number out with
  | nil =>
    simp only [List.nil_append, List.map_cons, blocks] at walked ⊢
    obtain ⟨middle, own, others⟩ := bind_eq_ok.mp walked
    exact bind_eq_ok.mpr ⟨middle, alike _ _ _ own, others⟩
  | cons block earlier ih =>
    simp only [List.cons_append, List.map_cons, blocks] at walked ⊢
    obtain ⟨middle, own, others⟩ := bind_eq_ok.mp walked
    exact bind_eq_ok.mpr ⟨middle, own, ih others⟩

/-- An entry of a walk that may be replaced by another. -/
theorem entries_entry {place : Place} {key : String} {value other : StyleValue}
    (alike : ∀ place out next, entry vocabulary mode expand place key value out = .ok next →
      entry vocabulary mode expand place key other out = .ok next)
    (front back : StyleNode) {out next : Output}
    (walked : entries vocabulary mode expand place (front ++ (key, value) :: back) out = .ok next) :
    entries vocabulary mode expand place (front ++ (key, other) :: back) out = .ok next := by
  rw [entries_append] at walked ⊢
  obtain ⟨reached, before, walked⟩ := bind_eq_ok.mp walked
  rw [entries] at walked
  obtain ⟨middle, own, others⟩ := bind_eq_ok.mp walked
  refine bind_eq_ok.mpr ⟨reached, before, ?_⟩
  rw [entries]
  exact bind_eq_ok.mpr ⟨middle, alike _ _ _ own, others⟩

theorem entries_writtenOut (names : ∀ name ∈ vocabulary.utilities.names,
    Text.hasPrefix "$" name = false)
    (remaining : Nat) {node other : StyleNode}
      (written : WrittenOut vocabulary.utilities node other)
    (place : Place) (out next : Output)
    (walked : entries vocabulary mode (expansion vocabulary mode remaining) place node
      out = .ok next) :
    entries vocabulary mode (expansion vocabulary mode remaining) place other out = .ok next := by
  induction written generalizing place out next with
  | @here front back key value utility known =>
    rw [entries_append] at walked
    obtain ⟨reached, before, walked⟩ := bind_eq_ok.mp walked
    rw [entries] at walked
    obtain ⟨middle, own, others⟩ := bind_eq_ok.mp walked
    have plain := not_localToken (names key (NameMap.mem_names_of_get? known))
    have expanded := entry_utility known plain own
    cases remaining with
    | zero => cases expanded
    | succ remaining =>
      have covered := covers_expansion (remaining + 1) key _ _ place.path _ _ expanded
      rw [List.append_assoc, entries_append]
      refine bind_eq_ok.mpr ⟨reached, before, ?_⟩
      rw [entries_append]
      exact bind_eq_ok.mpr ⟨middle, covered, others⟩
  | @block front back key block other free _ ih =>
    apply entries_entry _ front back walked
    intro place out next own
    obtain ⟨nested, opens⟩ := step_block free rfl own
    rw [entry, opens _ rfl] at own ⊢
    exact ih _ _ _ own
  | @item front back key block other earlier later free _ ih =>
    apply entries_entry _ front back walked
    intro place out next own
    have is_block (inner : StyleNode) :
        (StyleValue.list ((earlier ++ inner :: later).map .node)).isBlock = true := by
      simp [StyleValue.isBlock, List.all_map, Function.comp_def, StyleValue.isNode]
    have all_kept (nodes : List StyleNode) :
        (nodes.map StyleValue.node).filter StyleValue.isNode = nodes.map .node := by
      simp [List.filter_map, Function.comp_def, StyleValue.isNode]
    obtain ⟨nested, opens⟩ := step_block free (is_block block) own
    rw [entry, opens _ (is_block _)] at own ⊢
    simp only [all_kept, List.length_map, List.length_append, List.length_cons] at own ⊢
    exact blocks_item ih earlier later own

end Flatten

open Flatten

/-- A style object that can be flattened has the same rules, with the same numbers of entries and
blocks, when the key of a utility in it is written out. -/
theorem flatten_writtenOut {vocabulary : Vocabulary} {mode : FlattenMode} {node other : StyleNode}
    {rules : List FlatRule}
    (names : ∀ name ∈ vocabulary.utilities.names, Text.hasPrefix "$" name = false)
    (written : WrittenOut vocabulary.utilities node other)
    (flat : flatten vocabulary mode node = .ok rules) :
    flatten vocabulary mode other = .ok rules := by
  obtain ⟨out, walked, last⟩ := flatten_eq_ok.mp flat
  exact flatten_eq_ok.mpr ⟨out, entries_writtenOut names _ written _ _ _ walked, last⟩

/-- A utility that uses another in a nested selector, written out in the second block of an
at-rule. -/
theorem flatten_of_nested_utility :
    let box : Utility := .template
      [("width", .text "--value()"), ("&:hover", .node [("size", .text "--value()")])]
    let size : Utility := .template [("height", .text "--value()")]
    let vocabulary : Vocabulary :=
      ⟨⟨⟨"", "", ":root", .empty, []⟩, .empty, ""⟩, .ofList [("box", box), ("size", size)], []⟩
    let red : StyleNode := [("color", .text "red")]
    let node : StyleNode := [("@media print", .list [.node red,
      .node [("box", .text "1px"), ("top", .text "0")]])]
    let other : StyleNode := [("@media print", .list [.node red,
      .node (box.expand (.text "1px") ++ [("top", .text "0")])])]
    let rules : List FlatRule := [
      ⟨["@media print"], "&", "color", "red", 0, 1⟩, ⟨["@media print"], "&", "width", "1px", 1, 2⟩,
      ⟨["@media print"], "&:hover", "height", "1px", 2, 3⟩,
      ⟨["@media print"], "&", "top", "0", 3, 2⟩]
    (∀ name ∈ vocabulary.utilities.names, Text.hasPrefix "$" name = false) ∧
      WrittenOut vocabulary.utilities node other ∧ flatten vocabulary .scoped node = .ok rules ∧
        flatten vocabulary .scoped other = .ok rules := by
  intro box size vocabulary red node other rules
  have names : ∀ name ∈ vocabulary.utilities.names, Text.hasPrefix "$" name = false := by decide
  have known : vocabulary.utilities.get? "box" = some box := rfl
  have inner : WrittenOut vocabulary.utilities [("box", .text "1px"), ("top", .text "0")]
      (box.expand (.text "1px") ++ [("top", .text "0")]) := .here [] _ known
  have written : WrittenOut vocabulary.utilities node other := .item [] [] [red] [] rfl inner
  have flat : flatten vocabulary .scoped node = .ok rules := by decide +kernel
  exact ⟨names, written, flat, flatten_writtenOut names written flat⟩

end AtomicCss
