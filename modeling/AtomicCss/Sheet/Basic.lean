/-!
The rules of a stylesheet in cascade order.

Rules stand by group and, inside a group, by rank; rules of equal group and rank keep the order in
which they came. Each group is a list of its own, and the place of a new rule in it is found by
bisection. A rule is taken once: its hash decides whether it came before. A replicated sheet also
queues every new rule with the position that it took, for whoever keeps a copy of the sheet.
-/

namespace AtomicCss

/-- The groups of rules, in cascade order. -/
inductive SheetGroup where
  | imports
  | themed
  | global
  | atomic
  | nested
  | conditional
  deriving DecidableEq, Repr

namespace SheetGroup

def all : List SheetGroup := [imports, themed, global, atomic, nested, conditional]

def order : SheetGroup → Nat
  | imports => 0
  | themed => 1
  | global => 2
  | atomic => 3
  | nested => 4
  | conditional => 5

theorem order_lt (group : SheetGroup) : group.order < 6 := by cases group <;> decide

def place (group : SheetGroup) : Fin 6 := ⟨group.order, group.order_lt⟩

def name : SheetGroup → String
  | imports => "Import"
  | themed => "Themed"
  | global => "Global"
  | atomic => "Atomic"
  | nested => "Nested"
  | conditional => "Conditional"

end SheetGroup

/-- A rule of one group. -/
structure RankedRule where
  rank : Nat
  css : String
  deriving DecidableEq, Repr

structure SheetRule where
  group : SheetGroup
  rank : Nat
  css : String
  deriving DecidableEq, Repr

def RankedRule.inGroup (group : SheetGroup) (rule : RankedRule) : SheetRule :=
  ⟨group, rule.rank, rule.css⟩

/-- Whether the first rule may stand before the second. -/
def SheetRule.before (first second : SheetRule) : Bool :=
  first.group.order < second.group.order ||
    (first.group.order == second.group.order && first.rank ≤ second.rank)

/-- A new rule and the position that it took in the sheet. -/
structure Delivery where
  css : String
  index : Nat
  deriving DecidableEq, Repr

/-- Applies deliveries to a list of rules, each an insertion at its index; none if an index is
beyond the end. -/
def Delivery.replay (rules : List String) : List Delivery → Option (List String)
  | [] => some rules
  | delivery :: rest =>
    if delivery.index ≤ rules.length then
      replay (rules.insertIdx delivery.index delivery.css) rest
    else none

structure Sheet where
  /-- The rules of each group, by the place of the group in the cascade. -/
  groups : Vector (List RankedRule) 6
  /-- The hashes of all rules that were ever inserted. -/
  seen : List UInt64
  /-- The rules that were not delivered yet, oldest first; a sheet without a replica keeps none. -/
  pending : Option (List Delivery)

/-- The first index from `low` on at which a test fails, but `high` if it fails at none below. Only
a test that fails at every index after one at which it fails is answered rightly. -/
def bisect (test : Nat → Bool) (low high : Nat) : Nat :=
  if low < high then
    let middle := low + (high - low) / 2
    if test middle then bisect test (middle + 1) high else bisect test low middle
  else low
termination_by high - low

namespace Sheet

def empty : Sheet := ⟨Vector.replicate 6 [], [], none⟩

def replicated : Sheet := ⟨Vector.replicate 6 [], [], some []⟩

def group (sheet : Sheet) (group : SheetGroup) : List RankedRule := sheet.groups[group.place]

def rules (sheet : Sheet) : List SheetRule :=
  SheetGroup.all.flatMap fun group => (sheet.group group).map (·.inGroup group)

/-- How many rules stand in the groups before a group. -/
def offset (sheet : Sheet) (group : SheetGroup) : Nat :=
  let earlier := SheetGroup.all.filter (·.order < group.order)
  (earlier.map fun group => (sheet.group group).length).foldr (· + ·) 0

/-- Where a rule of a rank goes in its group: behind all rules of no higher rank. -/
def position (rules : List RankedRule) (rank : Nat) : Nat :=
  bisect (fun index => rules[index]?.any (·.rank ≤ rank)) 0 rules.length

/-- Inserts a rule unless its hash came before, and answers the position that it took in the
sheet. -/
def insert (sheet : Sheet) (group : SheetGroup) (rank : Nat) (hash : UInt64) (css : String) :
    Option Nat × Sheet :=
  if sheet.seen.contains hash then (none, sheet)
  else
    let rules := sheet.group group
    let position := position rules rank
    let index := sheet.offset group + position
    (some index,
      { groups := sheet.groups.set group.order (rules.insertIdx position ⟨rank, css⟩) group.order_lt
        seen := hash :: sheet.seen
        pending := sheet.pending.map (· ++ [⟨css, index⟩]) })

def contains (sheet : Sheet) (hash : UInt64) : Bool := sheet.seen.contains hash

def size (sheet : Sheet) : Nat :=
  (SheetGroup.all.map fun group => (sheet.group group).length).foldr (· + ·) 0

def groupSize (sheet : Sheet) (group : SheetGroup) : Nat := (sheet.group group).length

def texts (sheet : Sheet) : List String := sheet.rules.map (·.css)

def text (sheet : Sheet) : String := String.join sheet.texts

/-- Takes the oldest rule that was not delivered yet. Its index counts on all earlier ones having
been delivered. -/
def nextPending (sheet : Sheet) : Option Delivery × Sheet :=
  match sheet.pending with
  | some (delivery :: rest) => (some delivery, { sheet with pending := some rest })
  | _ => (none, sheet)

def hasPending (sheet : Sheet) : Bool := sheet.pending.any fun pending => !pending.isEmpty

end Sheet

end AtomicCss
