import AtomicCss.Proofs.Rule.Acceptance
import AtomicCss.Proofs.Selector.Brackets

/-!
The selectors that scoped styles write.

A declaration is written under the selectors that the keys around it lead to, from the owner
inwards. So its rule mentions the owner exactly if each of these keys has a part: below a key that
is nothing but commas no selector is left, and the next one stands alone.
-/

namespace AtomicCss

def KeyKind.Declares (kind : KeyKind) : Prop := kind = .property ∨ kind = .localToken

def KeyKind.Nests (kind : KeyKind) : Prop := kind = .pseudoSelector ∨ kind = .descendantSelector

namespace Flatten

/-- The selector keys around a declaration of a style object, the outermost first. At-rules add
none, and an expansion stands where its utility does. -/
inductive Encloses (vocabulary : Vocabulary) : List String → StyleNode → Prop where
  | declaration {node key value} : (key, value) ∈ node →
      (KeyKind.of vocabulary.utilities key value).Declares → Encloses vocabulary [] node
  | atRule {node key value block keys} : (key, value) ∈ node →
      KeyKind.of vocabulary.utilities key value = .atRule → block ∈ value.blocks →
      Encloses vocabulary keys block → Encloses vocabulary keys node
  | selector {node key value block keys} : (key, value) ∈ node →
      (KeyKind.of vocabulary.utilities key value).Nests → block ∈ value.blocks →
      Encloses vocabulary keys block → Encloses vocabulary (key :: keys) node
  | expansion {node key value utility keys} : (key, value) ∈ node →
      KeyKind.of vocabulary.utilities key value = .utility →
      vocabulary.utilities.get? key = some utility →
      Encloses vocabulary keys (utility.expand value) → Encloses vocabulary keys node

section Enclosing

variable {vocabulary : Vocabulary} {keys : List String} {key : String} {value : StyleValue}

theorem Encloses.mono {node other : StyleNode} (encloses : Encloses vocabulary keys node)
    (within : node ⊆ other) : Encloses vocabulary keys other := by
  cases encloses with
  | declaration member kind => exact .declaration (within member) kind
  | atRule member kind block inner => exact .atRule (within member) kind block inner
  | selector member kind block inner => exact .selector (within member) kind block inner
  | expansion member kind known inner => exact .expansion (within member) kind known inner

theorem encloses_cons {item : String × StyleValue} {rest : StyleNode} :
    Encloses vocabulary keys (item :: rest) ↔
      Encloses vocabulary keys [item] ∨ Encloses vocabulary keys rest := by
  have placed {other : String × StyleValue} (member : other ∈ item :: rest) :
      other ∈ [item] ∨ other ∈ rest := by
    simpa using member
  constructor
  · intro encloses
    cases encloses with
    | declaration member kind =>
      exact (placed member).imp (.declaration · kind) (.declaration · kind)
    | atRule member kind block inner =>
      exact (placed member).imp (.atRule · kind block inner) (.atRule · kind block inner)
    | selector member kind block inner =>
      exact (placed member).imp (.selector · kind block inner) (.selector · kind block inner)
    | expansion member kind known inner =>
      exact (placed member).imp (.expansion · kind known inner) (.expansion · kind known inner)
  · rintro (own | other)
    · exact own.mono (by simp)
    · exact other.mono (by simp)

theorem not_encloses_nil : ¬ Encloses vocabulary keys [] := by
  intro encloses
  cases encloses <;> contradiction

/-- What encloses the declarations of one entry, by the kind of its key. -/
theorem encloses_singleton :
    Encloses vocabulary keys [(key, value)] ↔
      match KeyKind.of vocabulary.utilities key value with
      | .property | .localToken => keys = []
      | .utility => ∃ utility, vocabulary.utilities.get? key = some utility ∧
          Encloses vocabulary keys (utility.expand value)
      | .pseudoSelector | .descendantSelector =>
        ∃ inner, keys = key :: inner ∧ ∃ block ∈ value.blocks, Encloses vocabulary inner block
      | .atRule => ∃ block ∈ value.blocks, Encloses vocabulary keys block
      | .atStatement => False := by
  have here : (key, value) ∈ [(key, value)] := List.mem_singleton_self _
  constructor
  · intro encloses
    cases encloses with
    | declaration member kind =>
      obtain ⟨rfl, rfl⟩ := Prod.mk.inj (List.mem_singleton.mp member)
      rcases kind with kind | kind <;> simp [kind]
    | atRule member kind block inner =>
      obtain ⟨rfl, rfl⟩ := Prod.mk.inj (List.mem_singleton.mp member)
      rw [kind]
      exact ⟨_, block, inner⟩
    | selector member kind block inner =>
      obtain ⟨rfl, rfl⟩ := Prod.mk.inj (List.mem_singleton.mp member)
      rcases kind with kind | kind <;> rw [kind] <;> exact ⟨_, rfl, _, block, inner⟩
    | expansion member kind known inner =>
      obtain ⟨rfl, rfl⟩ := Prod.mk.inj (List.mem_singleton.mp member)
      rw [kind]
      exact ⟨_, known, inner⟩
  · cases kind : KeyKind.of vocabulary.utilities key value with
    | property =>
      rintro rfl
      exact .declaration here (.inl kind)
    | localToken =>
      rintro rfl
      exact .declaration here (.inr kind)
    | utility =>
      rintro ⟨utility, known, inner⟩
      exact .expansion here kind known inner
    | pseudoSelector =>
      rintro ⟨inner, rfl, block, inside, encloses⟩
      exact .selector here (.inl kind) inside encloses
    | descendantSelector =>
      rintro ⟨inner, rfl, block, inside, encloses⟩
      exact .selector here (.inr kind) inside encloses
    | atRule =>
      rintro ⟨block, inside, encloses⟩
      exact .atRule here kind inside encloses
    | atStatement => exact False.elim

end Enclosing

/-- A rule stands under the selectors of keys below the owners. -/
def StandsUnder (owners keys : List String) (rule : FlatRule) : Prop :=
  ∃ selectors, Selector.chain? owners keys = some selectors ∧ selectors ≠ [] ∧
    rule.selector = ", ".intercalate selectors

/-- Rules were added under the keys that enclose declarations, and under each of them. -/
structure Writes (owners : List String) (enclosing : List String → Prop)
    (before after : List FlatRule) :
    Prop where
  kept : before ⊆ after
  sound : ∀ rule ∈ after, rule ∈ before ∨ ∃ keys, enclosing keys ∧ StandsUnder owners keys rule
  complete : ∀ keys, enclosing keys → ∃ rule ∈ after, StandsUnder owners keys rule

section Writing

variable {owners selectors : List String} {key : String} {enclosing others : List String → Prop}
  {before middle after : List FlatRule}

theorem writes_nothing (none_enclosing : ∀ keys, ¬ enclosing keys) :
    Writes owners enclosing before before where
  kept := List.Subset.refl _
  sound _ member := .inl member
  complete keys own := absurd own (none_enclosing keys)

theorem Writes.trans (first : Writes owners enclosing before middle)
    (second : Writes owners others middle after) :
    Writes owners (fun keys => enclosing keys ∨ others keys) before after where
  kept := List.Subset.trans first.kept second.kept
  sound rule member := by
    rcases second.sound rule member with earlier | ⟨keys, own, stands⟩
    · rcases first.sound rule earlier with old | ⟨keys, own, stands⟩
      · exact .inl old
      · exact .inr ⟨keys, .inl own, stands⟩
    · exact .inr ⟨keys, .inr own, stands⟩
  complete := by
    rintro keys (own | own)
    · obtain ⟨rule, member, stands⟩ := first.complete keys own
      exact ⟨rule, second.kept member, stands⟩
    · exact second.complete keys own

theorem Writes.congr (writes : Writes owners enclosing before after)
    (same : ∀ keys, others keys ↔ enclosing keys) : Writes owners others before after where
  kept := writes.kept
  sound rule member := (writes.sound rule member).imp_right
    fun ⟨keys, own, stands⟩ => ⟨keys, (same keys).mpr own, stands⟩
  complete keys own := writes.complete keys ((same keys).mp own)

theorem standsUnder_cons (nested : Selector.nest? owners key = some selectors) (keys : List String)
    (rule : FlatRule) :
    StandsUnder owners (key :: keys) rule ↔ StandsUnder selectors keys rule := by
  rw [StandsUnder, Selector.chain?_cons, nested]
  rfl

/-- What is written below a key is written under that key first. -/
theorem Writes.below (writes : Writes selectors enclosing before after)
    (nested : Selector.nest? owners key = some selectors) :
    Writes owners (fun keys => ∃ inner, keys = key :: inner ∧ enclosing inner) before after where
  kept := writes.kept
  sound rule member := (writes.sound rule member).imp_right fun ⟨inner, own, stands⟩ =>
    ⟨key :: inner, ⟨inner, rfl, own⟩, (standsUnder_cons nested inner rule).mpr stands⟩
  complete := by
    rintro _ ⟨inner, rfl, own⟩
    obtain ⟨rule, member, stands⟩ := writes.complete inner own
    exact ⟨rule, member, (standsUnder_cons nested inner rule).mpr stands⟩

theorem writes_declare (place : Place) (out : Output) (property : String) {values : List String}
    (some_value : values ≠ []) (owned : place.selectors ≠ []) :
    Writes place.selectors (fun keys => keys = []) out.rules
      (out.declare place property values).rules where
  kept := List.subset_append_left _ _
  sound rule member := by
    rcases List.mem_append.mp member with old | written
    · exact .inl old
    · obtain ⟨value, -, rfl⟩ := List.mem_map.mp written
      exact .inr ⟨[], rfl, place.selectors, rfl, owned, rfl⟩
  complete := by
    rintro _ rfl
    obtain ⟨value, inside⟩ := List.exists_mem_of_ne_nil values some_value
    exact ⟨_, List.mem_append_right _ (List.mem_map_of_mem inside), place.selectors,
      rfl, owned, rfl⟩

end Writing

variable {vocabulary : Vocabulary}

theorem itemTexts_ne_nil {text? : StyleValue → Option String} {items : List StyleValue}
    {texts : List String} (some_item : items ≠ []) (found : itemTexts text? items = .ok texts) :
    texts ≠ [] := by
  cases items with
  | nil => exact absurd rfl some_item
  | cons item rest =>
    unfold itemTexts at found
    split at found
    · cases found
    · split at found
      · cases found
      · obtain ⟨others, -, last⟩ := bind_eq_ok.mp found
        obtain rfl := Except.ok.inj last
        exact List.cons_ne_nil _ _

/-- A declaration that was accepted has a value and stands under a selector. -/
theorem declare_eq_ok {place : Place} {key : String} {value : StyleValue} {out : Output}
    {taken : Step} (not_bare : place.bare = false)
    (declared : declare vocabulary place key value out = .ok taken) :
    ∃ property values, taken = .written (out.declare place property values) ∧ values ≠ [] ∧
      place.selectors ≠ [] := by
  unfold declare at declared
  split at declared
  · cases declared
  · split at declared
    · cases declared
    · next owned =>
      obtain ⟨values, found, last⟩ := bind_eq_ok.mp declared
      obtain rfl := Except.ok.inj last
      refine ⟨_, values, rfl, ?_, by simpa [not_bare] using owned⟩
      unfold declarationValues at found
      split at found
      · cases found
      · next some_item => exact itemTexts_ne_nil (by simpa using some_item) found

/-- What an entry of a scoped style comes to, by the kind of its key. -/
theorem step_scoped {place : Place} {key : String} {value : StyleValue} {out : Output}
    {taken : Step} (not_bare : place.bare = false)
    (stepped : step vocabulary .scoped place key value out = .ok taken) :
    match KeyKind.of vocabulary.utilities key value with
    | .property | .localToken => ∃ property values,
        taken = .written (out.declare place property values) ∧ values ≠ [] ∧ place.selectors ≠ []
    | .utility => ∃ utility, vocabulary.utilities.get? key = some utility ∧
        taken = .expansion key place (utility.expand value)
    | .pseudoSelector | .descendantSelector => ∃ selectors,
        Selector.nest? place.selectors key = some selectors ∧
          taken = .blocks { place with selectors, bare := false }
    | .atRule => ∃ atRules, taken = .blocks { place with atRules, bare := false }
    | .atStatement => False := by
  unfold step at stepped
  split at stepped
  · cases stepped
  · cases kind : KeyKind.of vocabulary.utilities key value with
    | property | localToken =>
      simp only [kind] at stepped
      exact declare_eq_ok not_bare stepped
    | utility =>
      simp only [kind] at stepped
      obtain ⟨utility, known⟩ := known_of_utility kind
      simp only [known] at stepped
      split at stepped
      · exact ⟨utility, known, (Except.ok.inj stepped).symm⟩
      · cases stepped
    | pseudoSelector | descendantSelector =>
      simp only [kind] at stepped
      split at stepped
      · cases stepped
      · next selectors nested => exact ⟨selectors, nested, (Except.ok.inj stepped).symm⟩
    | atRule =>
      simp only [kind] at stepped
      exact ⟨_, (Except.ok.inj stepped).symm⟩
    | atStatement => simp [kind] at stepped

/-- An expander that writes what its object encloses. -/
def WritesAll (vocabulary : Vocabulary) (expand : Expander) : Prop :=
  ∀ utility node {place : Place} {out next : Output},
    expand utility place node out = .ok next → place.bare = false →
      Writes place.selectors (Encloses vocabulary · node) out.rules next.rules

variable {expand : Expander}

mutual

theorem entries_writes (all : WritesAll vocabulary expand) (items : StyleNode) {place : Place}
    {out next : Output} (walked : entries vocabulary .scoped expand place items out = .ok next)
    (not_bare : place.bare = false) :
    Writes place.selectors (Encloses vocabulary · items) out.rules next.rules := by
  match items with
  | [] =>
    rw [entries] at walked
    obtain rfl := Except.ok.inj walked
    exact writes_nothing fun keys => not_encloses_nil
  | (key, value) :: rest =>
    rw [entries] at walked
    obtain ⟨middle, own, others⟩ := bind_eq_ok.mp walked
    have first := entry_writes all key value own not_bare
    have second := entries_writes all rest others not_bare
    exact (first.trans second).congr fun keys => encloses_cons

theorem entry_writes (all : WritesAll vocabulary expand) (key : String) (value : StyleValue)
    {place : Place} {out next : Output}
    (walked : entry vocabulary .scoped expand place key value out = .ok next)
    (not_bare : place.bare = false) :
    Writes place.selectors (Encloses vocabulary · [(key, value)]) out.rules next.rules := by
  have blocks_write {inner : Place} (inner_not_bare : inner.bare = false)
      (walked_inner : (match value with
        | .node block =>
          entries vocabulary .scoped expand { inner with block := out.nextBlock } block
            { out with nextBlock := out.nextBlock + 1 }
        | .list items =>
          blocks vocabulary .scoped expand inner out.nextBlock items
            { out with nextBlock := out.nextBlock + (items.filter StyleValue.isNode).length }
        | _ => .ok out) = .ok next) :
      Writes inner.selectors (fun keys => ∃ block ∈ value.blocks, Encloses vocabulary keys block)
        out.rules next.rules := by
    match value with
    | .node block =>
      have writes := entries_writes all block walked_inner inner_not_bare
      exact writes.congr fun keys => by simp [StyleValue.blocks]
    | .list items =>
      have writes := blocks_writes all items walked_inner inner_not_bare
      exact writes
    | .text _ =>
      obtain rfl := Except.ok.inj walked_inner
      exact writes_nothing fun keys => by simp [StyleValue.blocks]
    | .number _ =>
      obtain rfl := Except.ok.inj walked_inner
      exact writes_nothing fun keys => by simp [StyleValue.blocks]
  rw [entry] at walked
  cases stepped : step vocabulary .scoped place key value out with
  | error fault => simp [stepped] at walked
  | ok taken =>
    have came_to := step_scoped not_bare stepped
    have enclosed (keys : List String) := @encloses_singleton vocabulary keys key value
    rw [stepped] at walked
    cases kind : KeyKind.of vocabulary.utilities key value with
    | property | localToken =>
      simp only [kind] at came_to enclosed
      obtain ⟨property, values, rfl, some_value, owned⟩ := came_to
      obtain rfl := Except.ok.inj walked
      exact (writes_declare place out property some_value owned).congr enclosed
    | utility =>
      simp only [kind] at came_to enclosed
      obtain ⟨utility, known, rfl⟩ := came_to
      apply (all key (utility.expand value) walked not_bare).congr
      intro keys
      simp [enclosed, known]
    | pseudoSelector | descendantSelector =>
      simp only [kind] at came_to enclosed
      obtain ⟨selectors, nested, rfl⟩ := came_to
      exact ((blocks_write rfl walked).below nested).congr enclosed
    | atRule =>
      simp only [kind] at came_to enclosed
      obtain ⟨atRules, rfl⟩ := came_to
      exact (blocks_write rfl walked).congr enclosed
    | atStatement => simp [kind] at came_to

theorem blocks_writes (all : WritesAll vocabulary expand) (items : List StyleValue) {place : Place}
    {number : Nat} {out next : Output}
    (walked : blocks vocabulary .scoped expand place number items out = .ok next)
    (not_bare : place.bare = false) :
    Writes place.selectors (fun keys => ∃ block ∈ items.filterMap StyleValue.node?,
      Encloses vocabulary keys block) out.rules next.rules := by
  match items with
  | [] =>
    rw [blocks] at walked
    obtain rfl := Except.ok.inj walked
    exact writes_nothing fun keys => by simp
  | .node block :: rest =>
    rw [blocks] at walked
    obtain ⟨middle, own, others⟩ := bind_eq_ok.mp walked
    have first := entries_writes all block own not_bare
    have second := blocks_writes all rest others not_bare
    exact (first.trans second).congr fun keys => by simp [StyleValue.node?]
  | .list _ :: rest =>
    rw [blocks_cons_of_not_node rfl] at walked
    exact (blocks_writes all rest walked not_bare).congr fun keys => by simp [StyleValue.node?]
  | .text _ :: rest =>
    rw [blocks_cons_of_not_node rfl] at walked
    exact (blocks_writes all rest walked not_bare).congr fun keys => by simp [StyleValue.node?]
  | .number _ :: rest =>
    rw [blocks_cons_of_not_node rfl] at walked
    exact (blocks_writes all rest walked not_bare).congr fun keys => by simp [StyleValue.node?]

end

theorem writesAll_expansion (remaining : Nat) :
    WritesAll vocabulary (expansion vocabulary .scoped remaining) := by
  induction remaining with
  | zero =>
    intro utility node place out next walked not_bare
    cases walked
  | succ remaining ih =>
    intro utility node place out next walked not_bare
    exact entries_writes ih node walked not_bare

theorem flatten_writes {node : StyleNode} {rules : List FlatRule}
    (flat : flatten vocabulary .scoped node = .ok rules) :
    Writes ["&"] (Encloses vocabulary · node) [] rules := by
  obtain ⟨out, walked, rfl⟩ := flatten_eq_ok.mp flat
  exact entries_writes (writesAll_expansion Utility.depthLimit) node walked rfl

end Flatten

open Flatten Selector

theorem mentionsOwner_intercalate {mentioned : Bool} {selectors : List (List Char)}
    (some_selector : selectors ≠ [])
    (mention : ∀ selector ∈ selectors, mentionsOwner selector = mentioned) :
    mentionsOwner ([',', ' '].intercalate selectors) = mentioned := by
  induction selectors with
  | nil => exact absurd rfl some_selector
  | cons selector rest ih =>
    obtain ⟨own, others⟩ := List.forall_mem_cons.mp mention
    cases rest with
    | nil => simpa [List.intercalate] using own
    | cons next more =>
      have joined : [',', ' '].intercalate (selector :: next :: more) =
          selector ++ ([',', ' '] ++ [',', ' '].intercalate (next :: more)) := by
        simp [List.intercalate]
      have plain : mentionsOwner [',', ' '] = false := by decide
      rw [joined, mentionsOwner_append, mentionsOwner_append, own, plain,
        ih (List.cons_ne_nil _ _) others]
      cases mentioned <;> rfl

/-- A list of selectors that agree about the owner agrees with each of them. -/
theorem mentionsOwner_join {selectors : List String} {mentioned : Bool}
    (some_selector : selectors ≠ []) (mention : Mention mentioned selectors) :
    mentionsOwner (", ".intercalate selectors).toList = mentioned := by
  have separator : (", " : String).toList = [',', ' '] := rfl
  rw [String.toList_intercalate, separator]
  apply mentionsOwner_intercalate (by simpa using some_selector)
  exact List.forall_mem_map.mpr mention

/-- The owner on its own, of which scoped styles start. -/
theorem mention_owner : Mention true ["&"] := by
  intro selector member
  obtain rfl := List.mem_singleton.mp member
  decide

/-- The rules of a scoped style all mention the owner exactly if every key around a declaration has
a part. A rule mentions it in each of its selectors or in none, as the keys around its declaration
decide; and in each part of its text, if these keys close no brackets that they did not open. -/
theorem flatten_mentionsOwner {vocabulary : Vocabulary} {node : StyleNode} {rules : List FlatRule}
    (flat : flatten vocabulary .scoped node = .ok rules) :
    ((∀ rule ∈ rules, mentionsOwner rule.selector.toList = true) ↔
      ∀ keys, Encloses vocabulary keys node → ∀ key ∈ keys, parts key.toList ≠ []) ∧
    ∀ rule ∈ rules, ∃ keys selectors, Encloses vocabulary keys node ∧
      chain? ["&"] keys = some selectors ∧ rule.selector = ", ".intercalate selectors ∧
      ((∀ key ∈ keys, parts key.toList ≠ []) → Mention true selectors) ∧
      ((∃ key ∈ keys, parts key.toList = []) → Mention false selectors) ∧
      ((∀ key ∈ keys, parts key.toList ≠ [] ∧ ClosesOwn key) →
        ∀ part ∈ parts rule.selector.toList, mentionsOwner part = true) := by
  have writes := flatten_writes flat
  have some_owner : ["&"] ≠ [] := List.cons_ne_nil _ _
  constructor
  · constructor
    · intro all keys encloses key inside no_part
      obtain ⟨rule, member, selectors, nested, some_selector, joined⟩ :=
        writes.complete keys encloses
      have silent := mention_chain?_of_lost ⟨key, inside, no_part⟩ nested
      have named := all rule member
      rw [joined, mentionsOwner_join some_selector silent] at named
      cases named
    · intro all rule member
      rcases writes.sound rule member with
        old | ⟨keys, encloses, selectors, nested, some_selector, joined⟩
      · cases old
      · rw [joined]
        apply mentionsOwner_join some_selector
        exact (mention_chain? mention_owner some_owner (all keys encloses) nested).2
  · intro rule member
    rcases writes.sound rule member with
      old | ⟨keys, encloses, selectors, nested, some_selector, joined⟩
    · cases old
    · refine ⟨keys, selectors, encloses, nested, joined, ?_, ?_, ?_⟩
      · intro all
        exact (mention_chain? mention_owner some_owner all nested).2
      · intro lost
        exact mention_chain?_of_lost lost nested
      · intro all part inside
        have own : ∀ owning ∈ ["&"], Sealed owning.toList := by
          intro owning here
          obtain rfl := List.mem_singleton.mp here
          exact ⟨by simp [Whole], by decide⟩
        have tight := sealed_chain? own (fun key here => (all key here).2) nested
        have mention :=
          mention_chain? mention_owner some_owner (fun key here => (all key here).1) nested
        rw [joined] at inside
        exact mentionsOwner_parts some_selector (fun selector here => (tight selector here).whole)
          mention.2 part inside

/-- Below a comma no selector is left, and a declaration there loses the owner. -/
theorem flatten_comma :
    let vocabulary : Vocabulary := ⟨⟨⟨"", "", ":root", .empty, []⟩, .empty, ""⟩, .empty, []⟩
    let node : StyleNode := [(",", .node [("a", .node [("color", .text "red")])])]
    let rules : List FlatRule := [⟨[], "a", "color", "red", 0, 2⟩]
    flatten vocabulary .scoped node = .ok rules ∧
      ¬ (∀ rule ∈ rules, mentionsOwner rule.selector.toList = true) ∧
      ∃ keys, Encloses vocabulary keys node ∧ ∃ key ∈ keys, parts key.toList = [] := by
  intro vocabulary node rules
  have flat : flatten vocabulary .scoped node = .ok rules := by decide +kernel
  have lost : ¬ (∀ rule ∈ rules, mentionsOwner rule.selector.toList = true) := by decide
  refine ⟨flat, lost, ?_⟩
  rw [(flatten_mentionsOwner flat).1] at lost
  push Not at lost
  exact lost

end AtomicCss
