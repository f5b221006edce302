import AtomicCss.Proofs.Keyed
import AtomicCss.Proofs.Rule.Flattening

/-!
Which style objects can be flattened.

In a scoped style an entry is judged by its key, its value, and whether there is a selector around
it. What stands beside it, the at-rules and the texts of the selectors decide nothing. So an object
that two accepted objects merge into is accepted, and an accepted object may be put under a
breakpoint.
-/

namespace AtomicCss

theorem Selector.nest?_alike {owners others : List String} (same : owners.isEmpty = others.isEmpty)
    {key : String} {selectors : List String} (nested : nest? owners key = some selectors) :
    ∃ found, nest? others key = some found ∧ found.isEmpty = selectors.isEmpty := by
  cases owners with
  | nil =>
    obtain rfl : others = [] := by simpa using same.symm
    exact ⟨selectors, nested, rfl⟩
  | cons owner owners =>
    cases others with
    | nil => cases same
    | cons other others =>
      simp only [nest?, List.isEmpty_cons, Bool.false_eq_true, if_false,
        Option.some.injEq] at nested ⊢
      refine ⟨_, rfl, ?_⟩
      rw [← nested]
      cases parts key.toList <;> rfl

namespace Utility

def IsTemplate : Utility → Prop
  | function _ => False
  | template _ => True

end Utility

/-- All utilities are templates. -/
def Vocabulary.Templates (vocabulary : Vocabulary) : Prop :=
  ∀ name utility, vocabulary.utilities.get? name = some utility → utility.IsTemplate

namespace Flatten

/-- A place of a scoped style; `owned` if there is a selector that declarations belong to. -/
structure Place.Within (owned : Bool) (place : Place) : Prop where
  selectors : place.selectors.isEmpty = !owned
  bare : place.bare = false

theorem Place.Within.at_path {owned : Bool} {place : Place} (within : place.Within owned)
    (path : String) : Place.Within owned { place with path } := ⟨within.selectors, within.bare⟩

theorem Place.Within.at_block {owned : Bool} {place : Place} (within : place.Within owned)
    (block : Nat) : Place.Within owned { place with block } := ⟨within.selectors, within.bare⟩

theorem within_rootPlace : (rootPlace .scoped).Within true := ⟨rfl, rfl⟩

/-- What an entry comes to at two places that both have a selector, or both have none. -/
inductive Step.Kin : Step → Step → Prop where
  | written (out other) : Kin (.written out) (.written other)
  | expansion (utility node) {owned first second} : Place.Within owned first →
      Place.Within owned second →
        Kin (.expansion utility first node) (.expansion utility second node)
  | blocks {owned first second} : Place.Within owned first → Place.Within owned second →
      Kin (.blocks first) (.blocks second)

variable {vocabulary : Vocabulary} {owned : Bool} {first second : Place}

theorem declare_kin (left : first.Within owned) (right : second.Within owned) {key : String}
    {value : StyleValue} {out : Output} {taken : Step}
    (declared : declare vocabulary first key value out = .ok taken) (other : Output) :
    ∃ found, declare vocabulary second key value other = .ok found ∧ taken.Kin found := by
  have same :
      (second.selectors.isEmpty && !second.bare) = (first.selectors.isEmpty && !first.bare) := by
    rw [left.selectors, left.bare, right.selectors, right.bare]
  unfold declare at declared ⊢
  rw [same]
  split at declared
  · cases declared
  · next plain =>
    split at declared
    · cases declared
    · next allowed =>
      rw [if_neg plain, if_neg allowed]
      obtain ⟨values, found, last⟩ := bind_eq_ok.mp declared
      obtain rfl := Except.ok.inj last
      exact ⟨_, bind_eq_ok.mpr ⟨values, found, rfl⟩, .written _ _⟩

theorem step_kin (left : first.Within owned) (right : second.Within owned) {key : String}
    {value : StyleValue} {out : Output} {taken : Step}
    (stepped : step vocabulary .scoped first key value out = .ok taken) (other : Output) :
    ∃ found, step vocabulary .scoped second key value other = .ok found ∧ taken.Kin found := by
  have nested {selectors : List String}
      (found : Selector.nest? first.selectors key = some selectors) :
      ∃ others, Selector.nest? second.selectors key = some others ∧
        Step.Kin (.blocks { first with selectors, bare := false })
          (.blocks { second with selectors := others, bare := false }) := by
    obtain ⟨others, found_second, same⟩ :=
      Selector.nest?_alike (left.selectors.trans right.selectors.symm) found
    have within : Place.Within (!selectors.isEmpty) { first with selectors, bare := false } :=
      ⟨by simp, rfl⟩
    have within_second :
        Place.Within (!selectors.isEmpty) { second with selectors := others, bare := false } :=
      ⟨by simp [same], rfl⟩
    exact ⟨others, found_second, .blocks within within_second⟩
  unfold step at stepped ⊢
  split at stepped
  · cases stepped
  · next shown =>
    rw [if_neg shown]
    cases kind : KeyKind.of vocabulary.utilities key value with
    | property | localToken =>
      simp only [kind] at stepped ⊢
      exact declare_kin left right stepped other
    | utility =>
      simp only [kind] at stepped ⊢
      cases known : vocabulary.utilities.get? key with
      | none =>
        simp only [known, Except.ok.injEq] at stepped ⊢
        exact ⟨_, rfl, stepped ▸ .written _ _⟩
      | some utility =>
        simp only [known] at stepped ⊢
        split at stepped
        · next accepts =>
          obtain rfl := Except.ok.inj stepped
          exact ⟨_, if_pos accepts, .expansion _ _ left right⟩
        · cases stepped
    | pseudoSelector | descendantSelector =>
      simp only [kind] at stepped ⊢
      cases found : Selector.nest? first.selectors key with
      | none => simp [found] at stepped
      | some selectors =>
        obtain ⟨others, found_second, kin⟩ := nested found
        simp only [found, found_second, Except.ok.injEq] at stepped ⊢
        exact ⟨_, rfl, stepped ▸ kin⟩
    | atRule =>
      simp only [kind, Except.ok.injEq] at stepped ⊢
      exact ⟨_, rfl, stepped ▸ .blocks ⟨left.selectors, rfl⟩ ⟨right.selectors, rfl⟩⟩
    | atStatement => simp [kind] at stepped

/-- An expander that walks an expansion at every place of a kind, or at none. -/
def Steady (expand : Expander) : Prop :=
  ∀ utility node {owned : Bool} {first second : Place} {out next : Output}, first.Within owned →
    second.Within owned → expand utility first node out = .ok next → ∀ other,
      ∃ last, expand utility second node other = .ok last

variable {expand : Expander}

mutual

theorem entries_kin (steady : Steady expand) (items : List (String × StyleValue)) {owned : Bool}
    {first second : Place} (left : first.Within owned) (right : second.Within owned)
    {out next : Output} (walked : entries vocabulary .scoped expand first items out = .ok next)
    (other : Output) : ∃ last, entries vocabulary .scoped expand second items other = .ok last := by
  match items with
  | [] => exact ⟨other, by rw [entries]⟩
  | (key, value) :: rest =>
    rw [entries] at walked
    obtain ⟨middle, own, others⟩ := bind_eq_ok.mp walked
    obtain ⟨reached, own_second⟩ := entry_kin steady key value (left.at_path _)
      (right.at_path (keyPath second.path key)) own other
    obtain ⟨last, others_second⟩ := entries_kin steady rest left right others reached
    exact ⟨last, by rw [entries]; exact bind_eq_ok.mpr ⟨reached, own_second, others_second⟩⟩

theorem entry_kin (steady : Steady expand) (key : String) (value : StyleValue) {owned : Bool}
    {first second : Place} (left : first.Within owned) (right : second.Within owned)
    {out next : Output} (walked : entry vocabulary .scoped expand first key value out = .ok next)
    (other : Output) :
    ∃ last, entry vocabulary .scoped expand second key value other = .ok last := by
  rw [entry] at walked ⊢
  cases stepped : step vocabulary .scoped first key value out with
  | error fault => simp [stepped] at walked
  | ok taken =>
    obtain ⟨found, stepped_second, kin⟩ := step_kin left right stepped other
    simp only [stepped, stepped_second] at walked ⊢
    cases kin with
    | written _ after => exact ⟨after, rfl⟩
    | expansion utility node within within_second =>
      exact steady utility node within within_second walked other
    | blocks within within_second =>
      match value with
      | .node block =>
        exact entries_kin steady block (within.at_block _) (within_second.at_block _) walked _
      | .list items => exact blocks_kin steady items within within_second walked _ _
      | .text _ => exact ⟨other, rfl⟩
      | .number _ => exact ⟨other, rfl⟩

theorem blocks_kin (steady : Steady expand) (items : List StyleValue) {owned : Bool}
    {first second : Place} (left : first.Within owned) (right : second.Within owned) {number : Nat}
    {out next : Output}
    (walked : blocks vocabulary .scoped expand first number items out = .ok next) (start : Nat)
    (other : Output) :
    ∃ last, blocks vocabulary .scoped expand second start items other = .ok last := by
  match items with
  | [] => exact ⟨other, by rw [blocks]⟩
  | .node block :: rest =>
    rw [blocks] at walked
    obtain ⟨middle, own, others⟩ := bind_eq_ok.mp walked
    obtain ⟨reached, own_second⟩ := entries_kin steady block (left.at_block number)
      (right.at_block start) own other
    obtain ⟨last, others_second⟩ := blocks_kin steady rest left right others (start + 1) reached
    exact ⟨last, by rw [blocks]; exact bind_eq_ok.mpr ⟨reached, own_second, others_second⟩⟩
  | .list _ :: rest =>
    rw [blocks_cons_of_not_node rfl] at walked ⊢
    exact blocks_kin steady rest left right walked start other
  | .text _ :: rest =>
    rw [blocks_cons_of_not_node rfl] at walked ⊢
    exact blocks_kin steady rest left right walked start other
  | .number _ :: rest =>
    rw [blocks_cons_of_not_node rfl] at walked ⊢
    exact blocks_kin steady rest left right walked start other

end

theorem steady_expansion (remaining : Nat) : Steady (expansion vocabulary .scoped remaining) := by
  induction remaining with
  | zero =>
    intro utility node owned first second out next left right walked
    cases walked
  | succ remaining ih =>
    intro utility node owned first second out next left right walked other
    exact entries_kin ih node left right walked other

/-- The entries can be walked at every place of a kind, whatever was written before. -/
def Accepts (vocabulary : Vocabulary) (expand : Expander) (owned : Bool) (items : StyleNode) :
    Prop :=
  ∀ place out, Place.Within owned place →
    ∃ next, entries vocabulary .scoped expand place items out = .ok next

def AcceptsEntry (vocabulary : Vocabulary) (expand : Expander) (owned : Bool) (key : String)
    (value : StyleValue) : Prop :=
  ∀ place out, Place.Within owned place →
    ∃ next, entry vocabulary .scoped expand place key value out = .ok next

theorem accepts_of_walked (steady : Steady expand) {place : Place} (within : place.Within owned)
    {items : StyleNode} {out next : Output}
    (walked : entries vocabulary .scoped expand place items out = .ok next) :
    Accepts vocabulary expand owned items :=
  fun _ other right => entries_kin steady items within right walked other

theorem accepts_cons (steady : Steady expand) (key : String) (value : StyleValue)
    (rest : StyleNode) :
    Accepts vocabulary expand owned ((key, value) :: rest) ↔
      AcceptsEntry vocabulary expand owned key value ∧ Accepts vocabulary expand owned rest := by
  constructor
  · intro accepted
    constructor
    · intro place out within
      obtain ⟨next, walked⟩ := accepted place out within
      rw [entries] at walked
      obtain ⟨middle, own, -⟩ := bind_eq_ok.mp walked
      exact entry_kin steady key value (within.at_path _) within own out
    · intro place out within
      obtain ⟨next, walked⟩ := accepted place out within
      rw [entries] at walked
      obtain ⟨middle, -, others⟩ := bind_eq_ok.mp walked
      exact entries_kin steady rest within within others out
  · rintro ⟨own, others⟩ place out within
    obtain ⟨middle, walked⟩ := own _ out (within.at_path (keyPath place.path key))
    obtain ⟨last, walked_rest⟩ := others place middle within
    exact ⟨last, by rw [entries]; exact bind_eq_ok.mpr ⟨middle, walked, walked_rest⟩⟩

/-- An object is accepted when each of its entries is. -/
theorem accepts_iff (steady : Steady expand) (items : StyleNode) :
    Accepts vocabulary expand owned items ↔
      ∀ item ∈ items, AcceptsEntry vocabulary expand owned item.1 item.2 := by
  induction items with
  | nil =>
    constructor
    · intro _ item member
      cases member
    · intro _ place out _
      exact ⟨out, by rw [entries]⟩
  | cons item rest ih => rw [accepts_cons steady, ih, List.forall_mem_cons]

/-- A block has no texts to declare. -/
theorem declare_block {value : StyleValue} (block : value.isBlock = true) (place : Place)
    (key : String) (out : Output) (taken : Step) :
    declare vocabulary place key value out ≠ .ok taken := by
  intro declared
  unfold declare at declared
  split at declared
  · cases declared
  · split at declared
    · cases declared
    · obtain ⟨values, found, -⟩ := bind_eq_ok.mp declared
      have no_text : ∀ property isLocal entries,
          itemText? vocabulary.scope property isLocal (.node entries) = none := by
        intro property isLocal entries
        cases isLocal <;> rfl
      cases value with
      | node entries => simp [declarationValues, items, itemTexts, isFiniteNumber, no_text] at found
      | list members =>
        cases members with
        | nil => cases block
        | cons member rest =>
          cases member with
          | node entries =>
            simp [declarationValues, items, itemTexts, isFiniteNumber, no_text] at found
          | _ => simp [StyleValue.isBlock, StyleValue.isNode] at block
      | _ => cases block

theorem known_of_utility {utilities : NameMap Utility} {key : String} {value : StyleValue}
    (kind : KeyKind.of utilities key value = .utility) :
    ∃ utility, utilities.get? key = some utility := by
  unfold KeyKind.of at kind
  split at kind
  · cases kind
  · split at kind
    · next known => exact Option.isSome_iff_exists.mp known
    · split at kind
      · split at kind <;> cases kind
      · split at kind
        · cases kind
        · split at kind <;> cases kind

/-- With templates only, an object under a key is refused or opens a block, whatever is in it. -/
theorem step_node (templates : vocabulary.Templates) {place : Place} {key : String}
    {block : StyleNode} {out : Output} {taken : Step}
    (stepped : step vocabulary .scoped place key (.node block) out = .ok taken) :
    ∃ nested, ∀ other, step vocabulary .scoped place key (.node other) out =
      .ok (.blocks nested) := by
  have same : ∀ other, KeyKind.of vocabulary.utilities key (.node other) =
      KeyKind.of vocabulary.utilities key (.node block) := fun _ => rfl
  unfold step at stepped ⊢
  split at stepped
  · cases stepped
  · next shown =>
    simp only [same, if_neg shown]
    cases kind : KeyKind.of vocabulary.utilities key (.node block) with
    | property | localToken =>
      simp only [kind] at stepped
      exact absurd stepped (declare_block rfl _ _ _ _)
    | utility =>
      obtain ⟨utility, known⟩ := known_of_utility kind
      cases utility with
      | function expansion => exact absurd (templates key _ known) id
      | template body => simp [kind, known, Utility.accepts, StyleValue.isNode] at stepped
    | pseudoSelector | descendantSelector =>
      simp only [kind] at stepped
      cases nested : Selector.nest? place.selectors key with
      | none => simp [nested] at stepped
      | some selectors => exact ⟨_, fun _ => rfl⟩
    | atRule => exact ⟨_, fun _ => rfl⟩
    | atStatement => simp [kind] at stepped

theorem entry_node {place : Place} {key : String} {block : StyleNode} {out : Output}
    {nested : Place}
    (stepped : step vocabulary .scoped place key (.node block) out = .ok (.blocks nested)) :
    entry vocabulary .scoped expand place key (.node block) out =
      entries vocabulary .scoped expand { nested with block := out.nextBlock } block
        { out with nextBlock := out.nextBlock + 1 } := by
  rw [entry, stepped]

/-- Two accepted objects under one key open one kind of block; so an object that such blocks accept
is accepted under the key too. -/
theorem acceptsEntry_node (templates : vocabulary.Templates) (steady : Steady expand) {key : String}
    {first second third : StyleNode}
    (combine : ∀ inner, Accepts vocabulary expand inner first →
      Accepts vocabulary expand inner second → Accepts vocabulary expand inner third)
    (left : AcceptsEntry vocabulary expand owned key (.node first))
    (right : AcceptsEntry vocabulary expand owned key (.node second)) :
    AcceptsEntry vocabulary expand owned key (.node third) := by
  intro place out within
  obtain ⟨next, walked⟩ := left place out within
  obtain ⟨last, walked_second⟩ := right place out within
  cases stepped : step vocabulary .scoped place key (.node first) out with
  | error fault => simp [entry, stepped] at walked
  | ok taken =>
    obtain ⟨nested, opens⟩ := step_node templates stepped
    obtain ⟨found, again, kin⟩ := step_kin within within (opens first) out
    rw [entry_node (opens first)] at walked
    rw [entry_node (opens second)] at walked_second
    rw [entry_node (opens third)]
    cases kin with
    | blocks inside _ =>
      have accepted := accepts_of_walked steady (inside.at_block _) walked
      have accepted_second := accepts_of_walked steady (inside.at_block _) walked_second
      exact combine _ accepted accepted_second _ _ (inside.at_block _)

theorem accepts_moveLast (steady : Steady expand) {base : StyleNode} {key : String}
    {value : StyleValue} (accepted : Accepts vocabulary expand owned base)
    (own : AcceptsEntry vocabulary expand owned key value) :
    Accepts vocabulary expand owned (StyleNode.moveLast base key value) := by
  rw [accepts_iff steady] at accepted ⊢
  intro item member
  rcases List.mem_append.mp member with kept | moved
  · exact accepted item (Keyed.mem_of_mem_erase kept)
  · rw [List.mem_singleton.mp moved]
    exact own

mutual

theorem accepts_merge (templates : vocabulary.Templates) (steady : Steady expand) {owned : Bool}
    (base : StyleNode) (other : List (String × StyleValue))
    (left : Accepts vocabulary expand owned base) (right : Accepts vocabulary expand owned other) :
    Accepts vocabulary expand owned (StyleNode.merge base other) := by
  match other with
  | [] =>
    rw [StyleNode.merge]
    exact left
  | (key, value) :: rest =>
    rw [StyleNode.merge]
    obtain ⟨own, others⟩ := (accepts_cons steady key value rest).mp right
    exact accepts_merge templates steady _ rest
      (accepts_mergeEntry templates steady base key value left own) others

theorem accepts_mergeEntry (templates : vocabulary.Templates) (steady : Steady expand)
    {owned : Bool} (base : StyleNode) (key : String) (value : StyleValue)
    (left : Accepts vocabulary expand owned base)
    (right : AcceptsEntry vocabulary expand owned key value) :
    Accepts vocabulary expand owned (StyleNode.mergeEntry base key value) := by
  match value with
  | .node incoming =>
    unfold StyleNode.mergeEntry
    split
    · next current found =>
      -- Two objects under one key: both are walked at the same place, so the merged one is.
      have accepted := (accepts_iff steady base).mp left
      have current_accepted := accepted _ (Keyed.mem_of_get? found)
      rw [accepts_iff steady]
      intro item member
      rcases Keyed.mem_set member with old | rfl
      · exact accepted item old
      · exact acceptsEntry_node templates steady
          (fun inner => accepts_merge templates steady current incoming) current_accepted right
    · exact accepts_moveLast steady left right
  | .text _ =>
    rw [StyleNode.mergeEntry]
    · exact accepts_moveLast steady left right
    · intro incoming same
      cases same
  | .number _ =>
    rw [StyleNode.mergeEntry]
    · exact accepts_moveLast steady left right
    · intro incoming same
      cases same
  | .list _ =>
    rw [StyleNode.mergeEntry]
    · exact accepts_moveLast steady left right
    · intro incoming same
      cases same

end

/-- An accepted object may be put under an at-rule key that names no utility. -/
theorem acceptsEntry_atRule {key : String} (marked : Text.hasPrefix "@" key = true)
    (free : vocabulary.utilities.get? key = none) {block : StyleNode}
    (accepted : Accepts vocabulary expand true block) :
    AcceptsEntry vocabulary expand true key (.node block) := by
  intro place out within
  have stepped := step_marked marked free place (.node block) out
  rw [entry_node stepped]
  exact accepted _ _ ⟨within.selectors, rfl⟩

end Flatten

open Flatten

/-- What it means that a style object can be flattened. -/
theorem flatten_scoped_iff {vocabulary : Vocabulary} {node : StyleNode} :
    (∃ rules, flatten vocabulary .scoped node = .ok rules) ↔
      Accepts vocabulary (expansion vocabulary .scoped Utility.depthLimit) true node := by
  constructor
  · rintro ⟨rules, flat⟩
    obtain ⟨out, walked, -⟩ := flatten_eq_ok.mp flat
    exact accepts_of_walked (steady_expansion _) within_rootPlace walked
  · intro accepted
    obtain ⟨out, walked⟩ := accepted _ .start within_rootPlace
    exact ⟨out.rules, flatten_eq_ok.mpr ⟨out, walked, rfl⟩⟩

end AtomicCss
