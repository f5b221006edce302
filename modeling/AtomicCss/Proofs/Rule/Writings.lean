import AtomicCss.Proofs.Rule.Acceptance
import AtomicCss.Proofs.Rule.Collapse

/-!
The entries of a style object that write rules.

They are listed without a walk, each with the positions that lead to it and to the block around it;
an expansion writes into the block around its utility. What a step of a walk does with an entry is
what the entry contributes to the list.
-/

namespace AtomicCss

/-- The text starts as at-rules do. -/
theorem AtRule.hasPrefix_iff {text : String} :
    Text.hasPrefix "@" text = true ↔ text.toList.head? = some '@' := by
  cases starts : text.toList with
  | nil => simp [Text.hasPrefix, starts]
  | cons c rest =>
    rw [Text.hasPrefix, starts]
    simpa [List.isPrefixOf] using eq_comm

theorem KeyKind.hasPrefix_at {utilities : NameMap Utility} {key : String} {value : StyleValue}
    (known : KeyKind.of utilities key value ≠ .utility) :
    Text.hasPrefix "@" key = true ↔
      KeyKind.of utilities key value = .atRule ∨ KeyKind.of utilities key value = .atStatement := by
  unfold KeyKind.of at known ⊢
  by_cases token : Text.hasPrefix "$$" key = true
  · have first : key.toList.head? = some '$' := by
      cases starts : key.toList with
      | nil => simp [Text.hasPrefix, starts] at token
      | cons c rest =>
        have starts_token : '$' = c ∧ ['$'] <+: rest := by
          simpa [Text.hasPrefix, starts, List.isPrefixOf] using token
        rw [← starts_token.1, List.head?_cons]
    simp [token, AtRule.hasPrefix_iff, first]
  · rw [if_neg token] at known ⊢
    by_cases listed : utilities.contains key = true
    · exact absurd (if_pos listed) known
    · rw [if_neg listed]
      by_cases marked : Text.hasPrefix "@" key = true
      · by_cases block : value.isBlock = true <;> simp [marked, block]
      · rw [if_neg marked]
        by_cases plain : (!value.isBlock) = true
        · simp [marked, plain]
        · rw [if_neg plain]
          split <;> simp [marked]

namespace Property

/-- Spelling a key as a property does not make it start as at-rules do. -/
theorem hasPrefix_ofKey {key : String} (unmarked : ¬ Text.hasPrefix "@" key = true) :
    ¬ Text.hasPrefix "@" (ofKey key) = true := by
  unfold ofKey
  dsimp only
  split
  · exact unmarked
  · rw [AtRule.hasPrefix_iff] at unmarked ⊢
    rw [String.toList_ofList]
    cases starts : key.toList with
    | nil => simp [hasLowerVendor]
    | cons c rest =>
      by_cases vendor : hasLowerVendor (c :: rest) = true
      · simp [vendor]
      · by_cases upper : c.isUpper = true
        · simp [vendor, dashed, upper]
        · simpa [vendor, dashed, upper, starts] using unmarked

theorem hasPrefix_ofLocalToken (name namePrefix : String) :
    ¬ Text.hasPrefix "@" (ofLocalToken name namePrefix) = true := by
  simp [AtRule.hasPrefix_iff, ofLocalToken, Name.customProperty]

end Property

namespace Flatten

/-- What surrounds an entry. -/
structure Site where
  selectors : List String
  atRules : List String
  /-- The positions that lead to the block around the entry. -/
  block : List Nat

def Place.site (place : Place) (block : List Nat) : Site := ⟨place.selectors, place.atRules, block⟩

/-- An entry that writes declarations or a statement. -/
structure Writing where
  /-- The positions that lead to the entry. -/
  address : List Nat
  site : Site
  key : String
  value : StyleValue

/-- The property that a key writes, and whether the key is a local token. -/
def propertyOf (vocabulary : Vocabulary) (key : String) : String × Bool :=
  match Text.stripPrefix? "$$" key with
  | some name => (Property.ofLocalToken name vocabulary.scope.namePrefix, true)
  | none => (Property.ofKey key, false)

namespace Writing

variable (vocabulary : Vocabulary) (writing : Writing)

def isStatement : Bool :=
  decide (KeyKind.of vocabulary.utilities writing.key writing.value = .atStatement)

def property : String :=
  if writing.isStatement vocabulary then writing.key else (propertyOf vocabulary writing.key).1

def selector : String := ", ".intercalate writing.site.selectors

def place : RulePlace := (writing.site.atRules, writing.selector, writing.property vocabulary)

/-- The values of the entry: fallbacks of a declaration, or texts of statements. -/
def values : Except Fault (List String) :=
  if writing.isStatement vocabulary then statementValues vocabulary.scope writing.key writing.value
  else
    let (property, isLocal) := propertyOf vocabulary writing.key
    declarationValues vocabulary.scope property isLocal writing.value

end Writing

/-- What an entry contributes. -/
inductive Role where
  | writes
  | expands (node : StyleNode)
  | opens (inner : Site)
  | nothing

def Role.of (vocabulary : Vocabulary) (site : Site) (key : String) (value : StyleValue) : Role :=
  match KeyKind.of vocabulary.utilities key value with
  | .property | .localToken | .atStatement => writes
  | .utility => match vocabulary.utilities.get? key with
    | some utility => expands (utility.expand value)
    | none => nothing
  | .pseudoSelector | .descendantSelector => match Selector.nest? site.selectors key with
    | some selectors => opens { site with selectors }
    | none => nothing
  | .atRule =>
    opens { site with atRules := site.atRules ++ [AtRule.ofKey vocabulary.breakpoints key] }

/-- Lists what an expansion at an address writes. -/
abbrev Lister := Site → List Nat → StyleNode → List Writing

mutual

/-- Lists what entries write, of which the first stands at a position below an address. -/
def writingsOfEntries (vocabulary : Vocabulary) (expand : Lister) (site : Site) (address : List Nat)
    (position : Nat) : List (String × StyleValue) → List Writing
  | [] => []
  | (key, value) :: rest =>
    writingsOfEntry vocabulary expand site (address ++ [position]) key value ++
      writingsOfEntries vocabulary expand site address (position + 1) rest

def writingsOfEntry (vocabulary : Vocabulary) (expand : Lister) (site : Site) (address : List Nat)
    (key : String) (value : StyleValue) : List Writing :=
  match Role.of vocabulary site key value with
  | .writes => [⟨address, site, key, value⟩]
  | .expands node => expand site address node
  | .opens inner => match value with
    | .node block =>
      writingsOfEntries vocabulary expand { inner with block := address ++ [0] }
        (address ++ [0]) 0 block
    | .list items => writingsOfBlocks vocabulary expand inner address 0 items
    | _ => []
  | .nothing => []

def writingsOfBlocks (vocabulary : Vocabulary) (expand : Lister) (site : Site) (address : List Nat)
    (position : Nat) : List StyleValue → List Writing
  | [] => []
  | .node block :: rest =>
    writingsOfEntries vocabulary expand { site with block := address ++ [position] }
        (address ++ [position]) 0 block ++
      writingsOfBlocks vocabulary expand site address (position + 1) rest
  | _ :: rest => writingsOfBlocks vocabulary expand site address (position + 1) rest

end

def writingsOfExpansion (vocabulary : Vocabulary) : (remaining : Nat) → Lister
  | 0, _, _, _ => []
  | remaining + 1, site, address, node =>
    writingsOfEntries vocabulary (writingsOfExpansion vocabulary remaining) site address 0 node

/-- The entries of a style object that write, in order. -/
def writings (vocabulary : Vocabulary) (mode : FlattenMode) (node : StyleNode) : List Writing :=
  writingsOfEntries vocabulary (writingsOfExpansion vocabulary Utility.depthLimit)
    ((rootPlace mode).site []) [] 0 node

section Steps

variable {vocabulary : Vocabulary} {mode : FlattenMode} {place : Place} {key : String}
  {value : StyleValue} {out : Output} {taken : Step}

theorem declare_writes (not_statement : KeyKind.of vocabulary.utilities key value ≠ .atStatement)
    (block address : List Nat) (declared : declare vocabulary place key value out = .ok taken) :
    let writing : Writing := ⟨address, place.site block, key, value⟩
    ∃ values, writing.values vocabulary = .ok values ∧
      taken = .written (out.declare place (writing.property vocabulary) values) := by
  intro writing
  have plain : writing.isStatement vocabulary = false := decide_eq_false not_statement
  unfold declare at declared
  split at declared
  · cases declared
  · split at declared
    · cases declared
    · obtain ⟨values, found, last⟩ := bind_eq_ok.mp declared
      refine ⟨values, ?_, ?_⟩
      · rw [Writing.values, plain]
        exact found
      · rw [Writing.property, plain]
        exact (Except.ok.inj last).symm

/-- Of the entries that write, statements write properties that start as at-rules do. -/
theorem hasPrefix_property {site : Site} (writes : Role.of vocabulary site key value = .writes)
    (address : List Nat) :
    let writing : Writing := ⟨address, site, key, value⟩
    Text.hasPrefix "@" (writing.property vocabulary) = writing.isStatement vocabulary := by
  intro writing
  have marked := @KeyKind.hasPrefix_at vocabulary.utilities key value
  have declares (unmarked : ¬ Text.hasPrefix "@" key = true)
      (plain : writing.isStatement vocabulary = false) :
      Text.hasPrefix "@" (writing.property vocabulary) = writing.isStatement vocabulary := by
    rw [plain, Writing.property, plain, if_neg Bool.false_ne_true, propertyOf]
    apply eq_false_of_ne_true
    split
    · exact Property.hasPrefix_ofLocalToken _ _
    · exact Property.hasPrefix_ofKey unmarked
  cases kind : KeyKind.of vocabulary.utilities key value with
  | property | localToken =>
    apply declares
    · simpa [kind] using marked
    · exact decide_eq_false (by simp [writing, kind])
  | atStatement =>
    have stated : writing.isStatement vocabulary = true := decide_eq_true kind
    rw [Writing.property, stated]
    simpa [kind] using marked
  | utility =>
    simp only [Role.of, kind] at writes
    split at writes <;> cases writes
  | pseudoSelector | descendantSelector =>
    simp only [Role.of, kind] at writes
    split at writes <;> cases writes
  | atRule => simp [Role.of, kind] at writes

/-- What an entry comes to, by its role. -/
theorem step_of_role (block address : List Nat)
    (stepped : step vocabulary mode place key value out = .ok taken) :
    let writing : Writing := ⟨address, place.site block, key, value⟩
    match Role.of vocabulary (place.site block) key value with
    | .writes => ∃ values, writing.values vocabulary = .ok values ∧
        if writing.isStatement vocabulary then
          taken = .written (out.state key values) ∧ place.selectors = [] ∧ place.atRules = []
        else taken = .written (out.declare place (writing.property vocabulary) values)
    | .expands node => taken = .expansion key place node
    | .opens inner => ∃ nested, taken = .blocks nested ∧ nested.site block = inner
    | .nothing => False := by
  intro writing
  unfold step at stepped
  split at stepped
  · cases stepped
  · cases kind : KeyKind.of vocabulary.utilities key value with
    | property | localToken =>
      have plain : writing.isStatement vocabulary = false :=
        decide_eq_false (by simp [writing, kind])
      simp only [kind] at stepped
      obtain ⟨values, found, written⟩ := declare_writes (by simp [kind]) block address stepped
      simp only [Role.of, kind, plain]
      exact ⟨values, found, written⟩
    | utility =>
      obtain ⟨utility, known⟩ := known_of_utility kind
      simp only [kind, known] at stepped
      simp only [Role.of, kind, known]
      split at stepped
      · exact (Except.ok.inj stepped).symm
      · cases stepped
    | pseudoSelector | descendantSelector =>
      simp only [kind] at stepped
      simp only [Role.of, kind, Place.site]
      split at stepped
      · cases stepped
      · next selectors nested =>
        rw [nested]
        exact ⟨_, (Except.ok.inj stepped).symm, rfl⟩
    | atRule =>
      simp only [kind] at stepped
      simp only [Role.of, kind]
      exact ⟨_, (Except.ok.inj stepped).symm, rfl⟩
    | atStatement =>
      have stated : writing.isStatement vocabulary = true := decide_eq_true kind
      simp only [kind] at stepped
      simp only [Role.of, kind, stated, if_true]
      split at stepped
      · cases stepped
      · next root =>
        obtain ⟨values, found, last⟩ := bind_eq_ok.mp stepped
        refine ⟨values, ?_, (Except.ok.inj last).symm, ?_⟩
        · rw [Writing.values, stated]
          exact found
        · have at_root : (mode = .global ∧ place.selectors = []) ∧ place.atRules = [] := by
            simpa using root
          exact ⟨at_root.1.2, at_root.2⟩

end Steps

end Flatten

end AtomicCss
