import AtomicCss.Proofs.NameMap
import AtomicCss.Proofs.Rule.Acceptance

/-!
Which values a walk meets, and which of them it refuses.

A walk meets the entries of an object, of its blocks and of what its utilities stand for. It takes
declarations, local tokens and statements only with texts and finite numbers. A template receives a
text instead of the value of its key: that of a scalar, or of the scalars of a list. So what else a
list holds is dropped there, and a number that is not finite goes through as a text.
-/

namespace AtomicCss

/-- Whether keys of the kind open the blocks of their value. -/
def KeyKind.opensBlocks : KeyKind → Bool
  | pseudoSelector | descendantSelector | atRule => true
  | property | utility | atStatement | localToken => false

/-- The entries that a walk meets: those of the object, of its blocks, and of what its utilities
stand for. -/
inductive Meets (utilities : NameMap Utility) : StyleNode → String → StyleValue → Prop where
  | own {node key value} : (key, value) ∈ node → Meets utilities node key value
  | block {node outer held block key value} : (outer, held) ∈ node →
      (KeyKind.of utilities outer held).opensBlocks = true → block ∈ held.blocks →
      Meets utilities block key value → Meets utilities node key value
  | expansion {node outer held utility key value} : (outer, held) ∈ node →
      KeyKind.of utilities outer held = .utility → utilities.get? outer = some utility →
      Meets utilities (utility.expand held) key value → Meets utilities node key value

namespace Flatten

/-- Whether every item of the value is a text or a finite number. -/
def isClean (value : StyleValue) : Bool :=
  (items value).all fun item => item.isScalar && isFiniteNumber item

variable {vocabulary : Vocabulary} {mode : FlattenMode}

theorem clean_of_itemTexts {text? : StyleValue → Option String}
    (scalar : ∀ {item text}, text? item = some text → item.isScalar = true)
    {members : List StyleValue} {texts : List String}
    (found : itemTexts text? members = .ok texts) :
    members.all (fun item => item.isScalar && isFiniteNumber item) = true := by
  induction members generalizing texts with
  | nil => rfl
  | cons item rest ih =>
    unfold itemTexts at found
    split at found
    · cases found
    · next finite =>
      split at found
      · cases found
      · next text shown =>
        obtain ⟨others, found_rest, -⟩ := bind_eq_ok.mp found
        have finite_item : isFiniteNumber item = true := by simpa using finite
        rw [List.all_cons, ih found_rest, scalar shown, finite_item]
        rfl

theorem isScalar_of_itemText? {scope : TokenScope} {property : String} {isLocal : Bool}
    {item : StyleValue} {text : String}
    (shown : itemText? scope property isLocal item = some text) :
    item.isScalar = true := by
  cases item with
  | text content => rfl
  | number value => rfl
  | list members => cases isLocal <;> cases shown
  | node entries => cases isLocal <;> cases shown

theorem clean_of_declare {place : Place} {key : String} {value : StyleValue} {out : Output}
    {taken : Step} (declared : declare vocabulary place key value out = .ok taken) :
    isClean value = true := by
  unfold declare at declared
  split at declared
  · cases declared
  · split at declared
    · cases declared
    · obtain ⟨values, found, -⟩ := bind_eq_ok.mp declared
      unfold declarationValues at found
      split at found
      · cases found
      · exact clean_of_itemTexts isScalar_of_itemText? found

/-- What an entry was taken for, and what that says about its value. -/
theorem step_eq_ok {place : Place} {key : String} {value : StyleValue} {out : Output} {taken : Step}
    (stepped : step vocabulary mode place key value out = .ok taken) :
    match KeyKind.of vocabulary.utilities key value with
    | .property | .localToken | .atStatement => isClean value = true
    | .utility => ∃ utility, vocabulary.utilities.get? key = some utility ∧
        utility.accepts value = true ∧ taken = .expansion key place (utility.expand value)
    | .pseudoSelector | .descendantSelector | .atRule => ∃ inner, taken = .blocks inner := by
  unfold step at stepped
  split at stepped
  · cases stepped
  · cases kind : KeyKind.of vocabulary.utilities key value with
    | property | localToken =>
      simp only [kind] at stepped
      exact clean_of_declare stepped
    | utility =>
      simp only [kind] at stepped
      obtain ⟨utility, known⟩ := known_of_utility kind
      simp only [known] at stepped
      split at stepped
      · next accepts => exact ⟨utility, known, accepts, (Except.ok.inj stepped).symm⟩
      · cases stepped
    | pseudoSelector | descendantSelector =>
      simp only [kind] at stepped
      split at stepped
      · cases stepped
      · exact ⟨_, (Except.ok.inj stepped).symm⟩
    | atRule =>
      simp only [kind] at stepped
      exact ⟨_, (Except.ok.inj stepped).symm⟩
    | atStatement =>
      simp only [kind] at stepped
      split at stepped
      · cases stepped
      · obtain ⟨values, found, -⟩ := bind_eq_ok.mp stepped
        apply clean_of_itemTexts _ found
        intro item text shown
        cases item with
        | text content => rfl
        | number value => rfl
        | list members => cases shown
        | node entries => cases shown

theorem exists_step_of_mem {expand : Expander} {node : StyleNode} {key : String}
    {value : StyleValue} (member : (key, value) ∈ node) {place : Place} {out next : Output}
    (walked : entries vocabulary mode expand place node out = .ok next) :
    ∃ place out taken next, step vocabulary mode place key value out = .ok taken ∧
      entry vocabulary mode expand place key value out = .ok next := by
  obtain ⟨front, back, rfl⟩ := List.append_of_mem member
  rw [entries_append] at walked
  obtain ⟨reached, -, walked⟩ := bind_eq_ok.mp walked
  rw [entries] at walked
  obtain ⟨after, own, -⟩ := bind_eq_ok.mp walked
  refine ⟨{ place with path := keyPath place.path key }, reached, ?_⟩
  cases stepped :
    step vocabulary mode { place with path := keyPath place.path key } key value reached with
  | error fault => simp [entry, stepped] at own
  | ok taken => exact ⟨taken, after, rfl, own⟩

theorem exists_entries_of_mem_blocks {expand : Expander} {members : List StyleValue}
    {block : StyleNode} (member : block ∈ members.filterMap StyleValue.node?) {place : Place}
    {number : Nat} {out next : Output}
    (walked : blocks vocabulary mode expand place number members out = .ok next) :
    ∃ place out next, entries vocabulary mode expand place block out = .ok next := by
  induction members generalizing number out with
  | nil => cases member
  | cons head rest ih =>
    cases head with
    | node own =>
      rw [blocks] at walked
      obtain ⟨middle, first, others⟩ := bind_eq_ok.mp walked
      rcases List.mem_cons.mp member with rfl | there
      · exact ⟨_, _, middle, first⟩
      · exact ih there others
    | text _ | number _ | list _ =>
      rw [blocks_cons_of_not_node rfl] at walked
      exact ih member walked

/-- A walk that succeeds takes a step at every entry that it meets. -/
theorem exists_step_of_meets {node : StyleNode} {key : String} {value : StyleValue}
    (meets : Meets vocabulary.utilities node key value) {remaining : Nat} {place : Place}
    {out next : Output}
    (walked : entries vocabulary mode (expansion vocabulary mode remaining) place node
      out = .ok next) :
    ∃ place out taken, step vocabulary mode place key value out = .ok taken := by
  induction meets generalizing remaining place out next with
  | @own node key value member =>
    obtain ⟨place, out, taken, next, stepped, -⟩ := exists_step_of_mem member walked
    exact ⟨place, out, taken, stepped⟩
  | @block node outer held block key value member opens inside _ ih =>
    obtain ⟨place, out, taken, next, stepped, own⟩ := exists_step_of_mem member walked
    obtain ⟨inner, rfl⟩ : ∃ inner, taken = .blocks inner := by
      have inverted := step_eq_ok stepped
      revert inverted opens
      cases KeyKind.of vocabulary.utilities outer held <;> simp [KeyKind.opensBlocks]
    simp only [entry, stepped] at own
    cases held with
    | node entries =>
      obtain rfl := List.mem_singleton.mp inside
      exact ih own
    | list members =>
      obtain ⟨place, out, next, walked_block⟩ := exists_entries_of_mem_blocks inside own
      exact ih walked_block
    | text _ => cases inside
    | number _ => cases inside
  | @expansion node outer held utility key value member kind known _ ih =>
    obtain ⟨place, out, taken, next, stepped, own⟩ := exists_step_of_mem member walked
    have inverted := step_eq_ok stepped
    simp only [kind] at inverted
    obtain ⟨found, same, -, rfl⟩ := inverted
    obtain rfl := Option.some.inj (known.symm.trans same)
    simp only [entry, stepped] at own
    cases remaining with
    | zero => cases own
    | succ remaining => exact ih own

end Flatten

namespace Utility

mutual

/-- The object with the text that a template receives in place of each value under the key of a
utility. -/
def spell (utilities : NameMap Utility) : List (String × StyleValue) → List (String × StyleValue)
  | [] => []
  | (key, value) :: rest => (key, spellValue utilities key value) :: spell utilities rest

def spellValue (utilities : NameMap Utility) (key : String) : StyleValue → StyleValue
  | .node block =>
    if (KeyKind.of utilities key (.node block)).opensBlocks then .node (spell utilities block)
    else .node block
  | .list members => match KeyKind.of utilities key (.list members) with
    | .utility => .text (argument (.list members))
    | kind => if kind.opensBlocks then .list (spellBlocks utilities members) else .list members
  | scalar => match KeyKind.of utilities key scalar with
    | .utility => .text (argument scalar)
    | _ => scalar

def spellBlocks (utilities : NameMap Utility) : List StyleValue → List StyleValue
  | [] => []
  | .node block :: rest => .node (spell utilities block) :: spellBlocks utilities rest
  | item :: rest => item :: spellBlocks utilities rest

end

/-- A template receives the texts of the items that have one. -/
theorem argument_eq (value : StyleValue) :
    argument value = ", ".intercalate ((Flatten.items value).filterMap StyleValue.cssText?) := by
  cases value with
  | list members => rfl
  | node block => rfl
  | text content => exact String.intercalate_singleton.symm
  | number value => exact String.intercalate_singleton.symm

theorem expand_argument {utility : Utility} (template : utility.IsTemplate) (value : StyleValue) :
    utility.expand (.text (argument value)) = utility.expand value := by
  cases utility with
  | function expansion => cases template
  | template body => rfl

theorem spellBlocks_cons_of_not_node {utilities : NameMap Utility} {item : StyleValue}
    (skipped : item.isNode = false) (rest : List StyleValue) :
    spellBlocks utilities (item :: rest) = item :: spellBlocks utilities rest := by
  cases item with
  | node block => cases skipped
  | text _ | number _ | list _ => rfl

theorem map_isNode_spellBlocks (utilities : NameMap Utility) (members : List StyleValue) :
    (spellBlocks utilities members).map StyleValue.isNode = members.map StyleValue.isNode := by
  induction members with
  | nil => rfl
  | cons member rest ih =>
    cases member with
    | node block => exact congrArg (true :: ·) ih
    | text _ | number _ | list _ => exact congrArg (false :: ·) ih

theorem isBlock_spellBlocks (utilities : NameMap Utility) (members : List StyleValue) :
    (StyleValue.list (spellBlocks utilities members)).isBlock =
      (StyleValue.list members).isBlock := by
  have shape (items : List StyleValue) : (StyleValue.list items).isBlock =
      (!(items.map StyleValue.isNode).isEmpty && (items.map StyleValue.isNode).all id) := by
    rw [List.isEmpty_map, List.all_map]
    rfl
  rw [shape, shape, map_isNode_spellBlocks]

theorem length_filter_spellBlocks (utilities : NameMap Utility) (members : List StyleValue) :
    ((spellBlocks utilities members).filter StyleValue.isNode).length =
      (members.filter StyleValue.isNode).length := by
  have shape (items : List StyleValue) :
      (items.filter StyleValue.isNode).length = (items.map StyleValue.isNode).count true := by
    rw [← List.countP_eq_length_filter, List.count, List.countP_map]
    apply List.countP_congr
    simp
  rw [shape, shape, map_isNode_spellBlocks]

end Utility

theorem KeyKind.of_congr (utilities : NameMap Utility) (key : String) {value other : StyleValue}
    (same : value.isBlock = other.isBlock) : of utilities key value = of utilities key other := by
  rw [of, same, ← of]

/-- The key of a utility is one whatever its value is. -/
theorem KeyKind.of_utility {utilities : NameMap Utility} {key : String} {value : StyleValue}
    (kind : of utilities key value = .utility) (other : StyleValue) :
    of utilities key other = .utility := by
  unfold of at kind ⊢
  split at kind
  · cases kind
  · next plain =>
    split at kind
    · next known => rw [if_neg plain, if_pos known]
    · repeat' split at kind
      all_goals cases kind

namespace Flatten

variable {vocabulary : Vocabulary} {mode : FlattenMode} {expand : Expander}

/-- Blocks are opened alike, whatever is in them. -/
theorem step_of_opens {place : Place} {key : String} {value : StyleValue}
    (opens : (KeyKind.of vocabulary.utilities key value).opensBlocks = true) (other : StyleValue)
    (same : value.isBlock = other.isBlock) (out : Output) :
    step vocabulary mode place key other out = step vocabulary mode place key value out := by
  unfold step
  rw [← KeyKind.of_congr vocabulary.utilities key same]
  revert opens
  cases KeyKind.of vocabulary.utilities key value <;> simp [KeyKind.opensBlocks]

/-- A template does not tell a value from the text that it receives for it. -/
theorem entry_argument (templates : vocabulary.Templates) {place : Place} {key : String}
    {value : StyleValue} (held : value.isNode = false)
    (kind : KeyKind.of vocabulary.utilities key value = .utility) (out : Output) :
    entry vocabulary mode expand place key (.text (Utility.argument value)) out =
      entry vocabulary mode expand place key value out := by
  obtain ⟨utility, known⟩ := known_of_utility kind
  have same : step vocabulary mode place key (.text (Utility.argument value)) out =
      step vocabulary mode place key value out := by
    have template := templates key utility known
    cases utility with
    | function expansion => cases template
    | template body =>
      have accepted : (Utility.template body).accepts value = true := by
        simp [Utility.accepts, held]
      have text_accepted :
          (Utility.template body).accepts (.text (Utility.argument value)) = true := rfl
      simp [step, kind, KeyKind.of_utility kind, known, accepted, text_accepted,
        Utility.expand_argument template]
  rw [entry, entry, same]
  cases stepped : step vocabulary mode place key value out with
  | error fault => rfl
  | ok taken =>
    have inverted := step_eq_ok stepped
    simp only [kind] at inverted
    obtain ⟨_, -, -, rfl⟩ := inverted
    rfl

mutual

theorem entries_spell (templates : vocabulary.Templates) (node : List (String × StyleValue))
    (place : Place) (out : Output) :
    entries vocabulary mode expand place (Utility.spell vocabulary.utilities node) out =
      entries vocabulary mode expand place node out := by
  match node with
  | [] => rw [Utility.spell]
  | (key, value) :: rest =>
    rw [Utility.spell, entries, entries, entry_spell templates key value]
    cases entry vocabulary mode expand { place with path := keyPath place.path key } key
      value out with
    | error error => rfl
    | ok next => exact entries_spell templates rest place next

theorem entry_spell (templates : vocabulary.Templates) (key : String) (value : StyleValue)
    (place : Place) (out : Output) :
    entry vocabulary mode expand place key (Utility.spellValue vocabulary.utilities key value) out =
      entry vocabulary mode expand place key value out := by
  match value with
  | .node block =>
    rw [Utility.spellValue]
    split
    · next opens =>
      rw [entry, entry, step_of_opens opens (.node (Utility.spell vocabulary.utilities block)) rfl]
      cases step vocabulary mode place key (.node block) out with
      | error fault => rfl
      | ok taken =>
        cases taken with
        | blocks inner => exact entries_spell templates block _ _
        | written _ | expansion _ _ _ => rfl
    · rfl
  | .list members =>
    rw [Utility.spellValue]
    split
    · next kind => exact entry_argument templates rfl kind out
    · split
      · next opens =>
        rw [entry, entry, step_of_opens opens _ (Utility.isBlock_spellBlocks _ members).symm]
        cases step vocabulary mode place key (.list members) out with
        | error fault => rfl
        | ok taken =>
          cases taken with
          | blocks inner =>
            dsimp only
            rw [Utility.length_filter_spellBlocks]
            exact blocks_spell templates members inner _ _
          | written _ | expansion _ _ _ => rfl
      · rfl
  | .text _ | .number _ =>
    rw [Utility.spellValue]
    split
    · next kind => exact entry_argument templates rfl kind out
    · rfl
    all_goals simp

theorem blocks_spell (templates : vocabulary.Templates) (members : List StyleValue) (place : Place)
    (number : Nat) (out : Output) :
    blocks vocabulary mode expand place
      number (Utility.spellBlocks vocabulary.utilities members) out =
      blocks vocabulary mode expand place number members out := by
  match members with
  | [] => rw [Utility.spellBlocks]
  | .node block :: rest =>
    rw [Utility.spellBlocks, blocks, blocks, entries_spell templates block]
    cases entries vocabulary mode expand { place with block := number } block out with
    | error error => rfl
    | ok next => exact blocks_spell templates rest place (number + 1) next
  | .text _ :: rest | .number _ :: rest | .list _ :: rest =>
    rw [Utility.spellBlocks_cons_of_not_node rfl,
      blocks_cons_of_not_node rfl, blocks_cons_of_not_node rfl]
    exact blocks_spell templates rest place number out

end

end Flatten

open Flatten

/-- A style object is flattened, or refused, as it is with the text that a template receives in
place of each value of a utility. -/
theorem flatten_spell {vocabulary : Vocabulary} (templates : vocabulary.Templates)
    (mode : FlattenMode) (node : StyleNode) :
    flatten vocabulary mode (Utility.spell vocabulary.utilities node) =
      flatten vocabulary mode node := by
  unfold flatten
  rw [entries_spell templates]

/-- What a walk with templates has made sure of about a value: a declaration, a local token and a
statement have texts and finite numbers, and the value of a utility is no object, of which its
template receives the texts. -/
def Vetted (utilities : NameMap Utility) (key : String) (value : StyleValue) : Prop :=
  match KeyKind.of utilities key value with
  | .property | .localToken | .atStatement => isClean value = true
  | .utility => value.isNode = false ∧ ∃ body, utilities.get? key = some (.template body) ∧
      (Utility.template body).expand value = Utility.fillEntries
        (", ".intercalate ((items value).filterMap StyleValue.cssText?)) body
  | .pseudoSelector | .descendantSelector | .atRule => True

theorem vetted_of_step {vocabulary : Vocabulary} (templates : vocabulary.Templates)
    {mode : FlattenMode} {place : Place} {key : String} {value : StyleValue} {out : Output}
    {taken : Step} (stepped : step vocabulary mode place key value out = .ok taken) :
    Vetted vocabulary.utilities key value := by
  have inverted := step_eq_ok stepped
  unfold Vetted
  cases kind : KeyKind.of vocabulary.utilities key value with
  | property | localToken | atStatement => simpa only [kind] using inverted
  | utility =>
    simp only [kind] at inverted
    obtain ⟨utility, known, accepts, -⟩ := inverted
    cases utility with
    | function expansion => cases templates key _ known
    | template body =>
      have plain : value.isNode = false := by simpa [Utility.accepts] using accepts
      refine ⟨plain, body, known, ?_⟩
      rw [Utility.expand, Utility.argument_eq]
  | pseudoSelector | descendantSelector | atRule => trivial

/-- Of a style object that can be flattened with templates, every value that was met has been
vetted. So all that were taken as values are clean iff those of the utilities are, which nothing
makes sure of: the rules are those of the style object in which each of these is replaced by the
text that its template receives. -/
theorem flatten_values {vocabulary : Vocabulary} {mode : FlattenMode} {node : StyleNode}
    {rules : List FlatRule} (templates : vocabulary.Templates)
    (flat : flatten vocabulary mode node = .ok rules) :
    (∀ key value, Meets vocabulary.utilities node key value →
      Vetted vocabulary.utilities key value) ∧
    ((∀ key value, Meets vocabulary.utilities node key value →
        (KeyKind.of vocabulary.utilities key value).opensBlocks = false → isClean value = true) ↔
      ∀ key value, Meets vocabulary.utilities node key value →
        KeyKind.of vocabulary.utilities key value = .utility → isClean value = true) ∧
    flatten vocabulary mode (Utility.spell vocabulary.utilities node) = .ok rules := by
  obtain ⟨out, walked, -⟩ := flatten_eq_ok.mp flat
  have vetted (key : String) (value : StyleValue)
      (meets : Meets vocabulary.utilities node key value) :
      Vetted vocabulary.utilities key value := by
    obtain ⟨place, reached, taken, stepped⟩ := exists_step_of_meets meets walked
    exact vetted_of_step templates stepped
  refine ⟨vetted, ⟨?_, ?_⟩, (flatten_spell templates mode node).trans flat⟩
  · intro clean key value meets kind
    exact clean key value meets (by rw [kind]; rfl)
  · intro clean key value meets opens
    have own := vetted key value meets
    cases kind : KeyKind.of vocabulary.utilities key value with
    | property | localToken | atStatement => simpa only [Vetted, kind] using own
    | utility => exact clean key value meets kind
    | pseudoSelector | descendantSelector | atRule => simp [kind, KeyKind.opensBlocks] at opens

/-- A template drops an object from the list that it is given, and writes a number out that is not
finite. -/
theorem flatten_values_of_utility :
    let vocabulary : Vocabulary := ⟨⟨⟨"", "", ":root", .empty, []⟩, .empty, ""⟩,
      .ofList [("px", .template [("paddingLeft", .text "--value()")])], []⟩
    let mixed : StyleValue := .list [.text "1px", .node [("color", .text "red")]]
    let node : StyleNode := [("px", mixed), ("&:hover", .node [("px", .number Binary64.nan)])]
    let rules : List FlatRule := [⟨[], "&", "padding-left", "1px", 0, 0⟩,
      ⟨[], "&:hover", "padding-left", "NaN", 1, 1⟩]
    vocabulary.Templates ∧ flatten vocabulary .scoped node = .ok rules ∧
      flatten vocabulary .scoped (Utility.spell vocabulary.utilities node) = .ok rules ∧
      Utility.spell vocabulary.utilities node =
        [("px", .text "1px"), ("&:hover", .node [("px", .text "NaN")])] ∧
      flatten vocabulary .scoped [("paddingLeft", mixed)] = .error
        (.invalid "paddingLeft" .mixedList) ∧
      ¬∀ key value, Meets vocabulary.utilities node key value →
        (KeyKind.of vocabulary.utilities key value).opensBlocks = false → isClean value = true := by
  intro vocabulary mixed node rules
  have templates : vocabulary.Templates := by
    intro name utility known
    have listed := NameMap.mem_of_get? known
    obtain ⟨-, rfl⟩ := Prod.ext_iff.mp (List.mem_singleton.mp listed)
    trivial
  have flat : flatten vocabulary .scoped node = .ok rules := by decide +kernel
  obtain ⟨-, -, spelled⟩ := flatten_values templates flat
  refine ⟨templates, flat, spelled, rfl, by decide +kernel, ?_⟩
  intro clean
  have dirty : isClean mixed = false := rfl
  have own := clean "px" mixed (.own (List.mem_cons_self ..)) (by decide +kernel)
  rw [dirty] at own
  cases own

end AtomicCss
