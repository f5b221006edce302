/-!
Binary64 numbers as exact values.

A finite number is a sign, a significand and a power of two. `ofRatio` rounds a quotient to the
nearest number, a tie to the even significand, so reading a numeral needs no floating-point
arithmetic.
-/

namespace AtomicCss

/-- A binary64 number. `finite negative m e` is `m · 2 ^ e` with its sign: `m < 2 ^ 53`,
`-1074 ≤ e ≤ 971`, and `2 ^ 52 ≤ m` unless `e = -1074`. -/
inductive Binary64 where
  | nan
  | infinite (negative : Bool)
  | finite (negative : Bool) (significand : Nat) (exponent : Int)
  deriving DecidableEq, Repr, Inhabited

namespace Binary64

def minExponent : Int := -1074

def maxExponent : Int := 971

def scale (num den : Nat) (shift : Int) : Nat × Nat :=
  if 0 ≤ shift then (num <<< shift.toNat, den) else (num, den <<< (-shift).toNat)

/-- The nearest whole number to `num / den`; a tie goes to the even one. -/
def roundEven (num den : Nat) : Nat :=
  let quotient := num / den
  let twice := 2 * (num % den)
  if twice < den then quotient
  else if den < twice then quotient + 1
  else quotient + quotient % 2

/-- A power of two no smaller than the unit in the last place of `num / den`, by at most one step
too small. -/
def unitExponent (num den : Nat) : Int :=
  max minExponent ((num.log2 : Int) - (den.log2 : Int) - 53)

/-- The finite number `m · 2 ^ e` once `m` has been rounded, or an infinity past the largest one. -/
def normalize (negative : Bool) (significand : Nat) (exponent : Int) : Binary64 :=
  let (m, e) :=
    if significand = Nat.pow 2 53 then (Nat.pow 2 52, exponent + 1) else (significand, exponent)
  if maxExponent < e then infinite negative else finite negative m e

def ofRatio (negative : Bool) (num den : Nat) : Binary64 :=
  let e := unitExponent num den
  let (n, d) := scale num den (-e)
  if n / d < Nat.pow 2 53 then normalize negative (roundEven n d) e
  else
    let (n, d) := scale num den (-(e + 1))
    normalize negative (roundEven n d) (e + 1)

def ofInt (value : Int) : Binary64 := ofRatio (decide (value < 0)) value.natAbs 1

def zero : Binary64 := finite false 0 minExponent

/-- The number of decimal digits of a natural number; one for zero. -/
def decimalLength (n : Nat) : Nat := (Nat.toDigits 10 n).length

/-- The number nearest to `digits · 10 ^ exponent`. Quotients beyond every finite number or below
half of the least one are settled by their size. -/
def ofDecimal (negative : Bool) (digits : Nat) (exponent : Int) : Binary64 :=
  let magnitude := (decimalLength digits : Int) + exponent
  if digits = 0 then finite negative 0 minExponent
  else if 310 < magnitude then infinite negative
  else if magnitude < -330 then finite negative 0 minExponent
  else if 0 ≤ exponent then ofRatio negative (digits * Nat.pow 10 exponent.toNat) 1
  else ofRatio negative digits (Nat.pow 10 (-exponent).toNat)

def times (num den : Nat) : Binary64 → Binary64
  | finite negative significand exponent =>
    let (n, d) := scale significand 1 exponent
    ofRatio negative (n * num) (d * den)
  | other => other

def isFinite : Binary64 → Bool
  | finite .. => true
  | _ => false

def isZero : Binary64 → Bool
  | finite _ significand _ => significand == 0
  | _ => false

def toInt? : Binary64 → Option Int
  | finite negative significand exponent =>
    let sign : Int := if negative then -1 else 1
    if 0 ≤ exponent then some (sign * (significand <<< exponent.toNat : Nat))
    else
      let unit := Nat.pow 2 (-exponent).toNat
      if significand % unit = 0 then some (sign * (significand / unit : Nat)) else none
  | _ => none

end Binary64

end AtomicCss
