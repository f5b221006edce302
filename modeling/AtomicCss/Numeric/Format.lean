import AtomicCss.Numeric.Shortest

/-!
Numbers as text.

A `NumberFormat` says how a format writes the shortest digits of a number: where it uses an
exponent, whether a whole number keeps a fraction digit, and how a tie between two decimals is
settled.
-/

namespace AtomicCss.Numeric

/-- How a format writes finite numbers. -/
structure NumberFormat where
  tie : Tie
  /-- Whether numbers of this scientific exponent are written without an exponent. -/
  positional : Int → Bool
  /-- Whether a positional whole number ends in `.0`. -/
  wholeFraction : Bool

def decimalDigits (n : Nat) : List Char := Nat.toDigits 10 n

/-- The exponent of the decimal in scientific form, with one digit before the point. -/
def Decimal.scientificExponent (decimal : Decimal) : Int :=
  ((decimalDigits decimal.digits).length : Int) + decimal.exponent - 1

def Decimal.positional (decimal : Decimal) (wholeFraction : Bool) : List Char :=
  let digits := decimalDigits decimal.digits
  if 0 ≤ decimal.exponent then
    digits ++ List.replicate decimal.exponent.toNat '0' ++
      (if wholeFraction then ['.', '0'] else [])
  else
    let places := (-decimal.exponent).toNat
    if places < digits.length then
      digits.take (digits.length - places) ++ '.' :: digits.drop (digits.length - places)
    else '0' :: '.' :: List.replicate (places - digits.length) '0' ++ digits

def Decimal.scientific (decimal : Decimal) : List Char :=
  let exponent := decimal.scientificExponent
  let mantissa := match decimalDigits decimal.digits with
    | [] => []
    | [digit] => [digit]
    | digit :: fraction => digit :: '.' :: fraction
  mantissa ++ 'e' :: (if exponent < 0 then '-' else '+') :: decimalDigits exponent.natAbs

def NumberFormat.decimal (format : NumberFormat) (decimal : Decimal) : List Char :=
  if format.positional decimal.scientificExponent then decimal.positional format.wholeFraction
  else decimal.scientific

def NumberFormat.finite (format : NumberFormat) (negative : Bool) (significand : Nat)
    (exponent : Int) :
    List Char :=
  let sign := if negative then ['-'] else []
  let magnitude : Decimal := if significand = 0 then ⟨0, 0⟩
    else shortest format.tie significand exponent
  sign ++ format.decimal magnitude

def stylesheet : NumberFormat := ⟨.up, fun _ => true, false⟩

/-- Whole numbers below this bound are written digit by digit. -/
def wholeBound : Nat := Nat.pow 10 15

/-- A number as a stylesheet writes it: no exponent, no trailing `.0`, and no sign on zero. -/
def stylesheetText (number : Binary64) : String :=
  match number.toInt? with
  | some whole =>
    if whole.natAbs < wholeBound then toString whole
    else written number
  | none => written number
where
  written : Binary64 → String
    | .nan => "NaN"
    | .infinite negative => if negative then "-inf" else "inf"
    | .finite negative significand exponent =>
      String.ofList (stylesheet.finite negative significand exponent)

end AtomicCss.Numeric
