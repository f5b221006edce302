import AtomicCss.Hash.Content
import AtomicCss.Rule.Flat
import AtomicCss.Sheet.Basic

/-!
Atomic declarations: one property with its fallback values under one selector and one path of
at-rules.

`collapse` makes them of flat rules: what was written last for a property wins, and the values of
one entry stay together as fallbacks.
-/

namespace AtomicCss

structure AtomicDeclaration where
  atRules : List String
  selector : String
  property : String
  values : List String
  deriving DecidableEq, Repr

namespace AtomicDeclaration

def parts (declaration : AtomicDeclaration) : List String :=
  declaration.atRules ++ "|" :: declaration.selector :: declaration.property :: declaration.values

def hash (declaration : AtomicDeclaration) : UInt64 := Hash.content declaration.parts

/-- Rules inside at-rules come last, and rules of the owner alone before those of nested
selectors. -/
def group (declaration : AtomicDeclaration) : SheetGroup :=
  if !declaration.atRules.isEmpty then .conditional
  else if declaration.selector = "&" then .atomic
  else .nested

def rank (breakpoints : Breakpoints) (declaration : AtomicDeclaration) : Nat :=
  match declaration.group with
  | .conditional => AtRule.conditionalRank breakpoints declaration.atRules
  | _ => 0

/-- The declarations between the braces. -/
def body (declaration : AtomicDeclaration) : String :=
  ";".intercalate (declaration.values.map fun value => declaration.property ++ ":" ++ value)

def ruleText (declaration : AtomicDeclaration) (className : String) : String :=
  AtRule.wrap declaration.atRules
    (AtRule.block
      (Text.replaceChar Selector.owner (Name.classSelector className) declaration.selector)
      declaration.body)

/-- Whether a flat rule writes the property of the declaration at the same place. -/
def isFor (declaration : AtomicDeclaration) (rule : FlatRule) : Bool :=
  declaration.atRules = rule.atRules ∧ declaration.selector = rule.selector ∧
    declaration.property = rule.property

/-- Takes up a flat rule: values of the same entry are fallbacks, those of another entry are
replaced. -/
def takeUp (rule : FlatRule) : List (AtomicDeclaration × Nat) → List (AtomicDeclaration × Nat)
  | [] => [(⟨rule.atRules, rule.selector, rule.property, [rule.value]⟩, rule.origin)]
  | (declaration, origin) :: rest =>
    if declaration.isFor rule then
      let kept := if origin = rule.origin then declaration.values else []
      ({ declaration with values := kept ++ [rule.value] }, rule.origin) :: rest
    else (declaration, origin) :: takeUp rule rest

end AtomicDeclaration

/-- One declaration for each property and place, in the order in which they first came. -/
def collapse (rules : List FlatRule) : List AtomicDeclaration :=
  (rules.foldl (fun taken rule => AtomicDeclaration.takeUp rule taken) []).map (·.1)

end AtomicCss
