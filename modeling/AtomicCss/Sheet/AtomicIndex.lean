import AtomicCss.Rule.Atomic
import AtomicCss.Text.Base36

/-!
The atomic rules of one configuration, by the hash of their declaration.

Equal declarations share a class and different declarations never do, whatever the hash function: a
slot that another declaration holds is passed over. Classes are numbered as declarations first come.
-/

namespace AtomicCss

structure AtomicRule where
  /-- The slot of the rule: the hash of its declaration, or the next one that was free. -/
  slot : UInt64
  className : String
  declaration : AtomicDeclaration
  css : String
  deriving DecidableEq, Repr

structure AtomicIndex where
  namePrefix : String
  rules : List AtomicRule
  /-- How many classes were given out. -/
  counter : Nat

namespace AtomicIndex

def empty (namePrefix : String) : AtomicIndex := ⟨namePrefix, [], 0⟩

def get? (index : AtomicIndex) (slot : UInt64) : Option AtomicRule :=
  index.rules.find? fun rule => rule.slot = slot

def size (index : AtomicIndex) : Nat := index.rules.length

def classOf (namePrefix : String) (number : Nat) : String :=
  Name.prefixed namePrefix ("c-" ++ Text.Base36.encode number)

/-- Looks for a declaration from a slot on: its rule, or the first free slot. As many steps as there
are rules reach a free slot unless every slot is taken. -/
def probe (index : AtomicIndex) (declaration : AtomicDeclaration) :
    (steps : Nat) → UInt64 → AtomicRule ⊕ UInt64
  | 0, slot => .inr slot
  | steps + 1, slot => match index.get? slot with
    | none => .inr slot
    | some rule =>
      if rule.declaration = declaration then .inl rule
      else index.probe declaration steps (slot + 1)

def emitWith (hash : AtomicDeclaration → UInt64) (index : AtomicIndex)
    (declaration : AtomicDeclaration) : (String × Option AtomicRule) × AtomicIndex :=
  match index.probe declaration (index.size + 1) (hash declaration) with
  | .inl rule => ((rule.className, none), index)
  | .inr slot =>
    let className := classOf index.namePrefix index.counter
    let rule : AtomicRule := ⟨slot, className, declaration, declaration.ruleText className⟩
    ((className, some rule),
      { index with rules := rule :: index.rules, counter := index.counter + 1 })

def emit (index : AtomicIndex) (declaration : AtomicDeclaration) :
    (String × Option AtomicRule) × AtomicIndex :=
  index.emitWith AtomicDeclaration.hash declaration

end AtomicIndex

end AtomicCss
