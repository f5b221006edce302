import AtomicCss.Numeric.Binary64

/-!
The shortest decimal that reads back as a given binary64 number.

The decimals that round to a number form an interval around it, with its ends when the significand
is even. For one digit, two digits and so on, the two neighbours of the number on that decimal grid
are tested for the interval; the first grid with a hit wins and of two hits the nearer one.
-/

namespace AtomicCss.Numeric

/-- Which of two equally near decimals is taken: the larger one or the one with an even last
digit. -/
inductive Tie where
  | up
  | even
  deriving DecidableEq, Repr

/-- The decimals around a positive number, as numerators over one denominator. -/
structure Interval where
  low : Nat
  value : Nat
  high : Nat
  denominator : Nat
  closed : Bool

/-- The decimals that round to `significand · 2 ^ exponent`. The gap below a power of two is half
the gap above it, except at the least exponent. -/
def Interval.around (significand : Nat) (exponent : Int) : Interval :=
  let below := if significand = Nat.pow 2 52 ∧ exponent ≠ Binary64.minExponent then 1 else 2
  let shift := (exponent - 2).toNat
  { low := (4 * significand - below) <<< shift
    value := (4 * significand) <<< shift
    high := (4 * significand + 2) <<< shift
    denominator := Nat.pow 2 (2 - exponent).toNat
    closed := significand % 2 == 0 }

/-- Whether `count` units lie in the interval, both measured on one denominator. -/
def Interval.holds (interval : Interval) (unit count : Nat) : Bool :=
  if interval.closed then interval.low ≤ count * unit && count * unit ≤ interval.high
  else interval.low < count * unit && count * unit < interval.high

/-- The interval over a denominator that makes `10 ^ power` a whole number of units. -/
def Interval.onGrid (interval : Interval) (power : Int) : Interval × Nat :=
  let factor := Nat.pow 10 (-power).toNat
  ({ interval with
      low := interval.low * factor, value := interval.value * factor
      high := interval.high * factor },
    interval.denominator * Nat.pow 10 power.toNat)

/-- The multiple of `10 ^ power` that reads back as the number, if its neighbours on that grid hold
one. -/
def Interval.pick? (interval : Interval) (tie : Tie) (power : Int) : Option Nat :=
  let (grid, unit) := interval.onGrid power
  let floor := grid.value / unit
  let twice := 2 * (grid.value % unit)
  match grid.holds unit floor, grid.holds unit (floor + 1) with
  | true, true =>
    if twice < unit then some floor
    else if unit < twice then some (floor + 1)
    else match tie with
      | .up => some (floor + 1)
      | .even => some (floor + floor % 2)
  | true, false => some floor
  | false, true => some (floor + 1)
  | false, false => none

/-- A positive decimal `digits · 10 ^ exponent`. -/
structure Decimal where
  digits : Nat
  exponent : Int
  deriving DecidableEq, Repr

/-- Drops the zeros that end the digits, at most `limit` of them. -/
def Decimal.strip : (limit : Nat) → Decimal → Decimal
  | 0, decimal => decimal
  | limit + 1, decimal =>
    if decimal.digits % 10 = 0 then Decimal.strip limit ⟨decimal.digits / 10, decimal.exponent + 1⟩
    else decimal

/-- The power of ten just above the number: it is at least `10 ^ (n - 1)` and below `10 ^ n`. -/
def Interval.magnitude (interval : Interval) : Int :=
  (Binary64.decimalLength (interval.value * Nat.pow 10 350 / interval.denominator) : Int) - 350

/-- Tries grids of `count` digits and more; seventeen digits always suffice. -/
def Interval.search (interval : Interval) (tie : Tie) : (remaining : Nat) → (power : Int) → Decimal
  | 0, power => ⟨(interval.pick? tie power).getD 0, power⟩
  | remaining + 1, power =>
    match interval.pick? tie power with
    | some digits => ⟨digits, power⟩
    | none => interval.search tie remaining (power - 1)

/-- The shortest decimal that reads back as `significand · 2 ^ exponent`, nearest among those. -/
def shortest (tie : Tie) (significand : Nat) (exponent : Int) : Decimal :=
  let interval := Interval.around significand exponent
  (interval.search tie 16 (interval.magnitude - 1)).strip 20

end AtomicCss.Numeric
