import AtomicCss.Numeric.Numeral

/-!
Numerals read step by step.

The leading digits that a word of 64 bits holds are rounded to a binary64 number, which is then
scaled by powers of ten. Every step rounds once, so the result may lie next to the number nearest to
the numeral, and a numeral near the largest number may go past it.
-/

namespace AtomicCss.Numeric

/-- The digits from the start on that fit a word behind those already read, and the digits left. -/
def takeFitting (read : Nat) : List Char → Nat × List Char
  | [] => (read, [])
  | digit :: rest =>
    let next := 10 * read + digitValue digit
    if next < UInt64.size then takeFitting next rest else (read, digit :: rest)

/-- The largest exponent of a power of ten that is finite. -/
def largestPower : Nat := 308

/-- The binary64 number nearest to `10 ^ n`, which is whole. -/
def powerOfTen (n : Nat) : Nat := ((Binary64.ofInt (Nat.pow 10 n)).toInt?.getD 0).toNat

/-- Scales a number by `10 ^ exponent`; far below zero in steps of the largest power. -/
def scaleTen (negative : Bool) (number : Binary64) (exponent : Int) : Binary64 :=
  if number.isZero then number
  else if largestPower < exponent then .infinite negative
  else if 0 ≤ exponent then number.times (powerOfTen exponent.toNat) 1
  else if -largestPower ≤ exponent then number.times 1 (powerOfTen (-exponent).toNat)
  else scaleTen negative (number.times 1 (powerOfTen largestPower)) (exponent + largestPower)
termination_by (-exponent).toNat
decreasing_by
  have : largestPower = 308 := rfl
  omega

/-- The number that a numeral comes to step by step. Whole digits that do not fit the word count for
the scale; digits of the fraction that do not fit are lost. -/
def Numeral.stepwise (negative : Bool) (numeral : Numeral) : Binary64 :=
  let fraction := numeral.fraction.getD []
  let (word, skipped) := takeFitting 0 numeral.whole
  let (word, lost) := takeFitting word fraction
  let places : Int := (skipped.length : Int) + lost.length - fraction.length
  scaleTen negative (Binary64.ofRatio negative word 1) (places + numeral.power)

end AtomicCss.Numeric
