import AtomicCss.Numeric.Binary64

/-!
Decimal numerals: digits with an optional fraction and an optional exponent.

`Numeral.ofChars?` reads the parts of a numeral leniently; the formats that use it add their own
rules, such as `Numeral.isCanonical`.
-/

namespace AtomicCss.Numeric

def isDigit (c : Char) : Bool := '0' ≤ c && c ≤ '9'

def digitValue (c : Char) : Nat := c.toNat - '0'.toNat

def natOfDigits (digits : List Char) : Nat :=
  digits.foldl (fun value digit => 10 * value + digitValue digit) 0

def spanDigits (cs : List Char) : List Char × List Char := cs.span isDigit

def splitSign : List Char → Bool × List Char
  | '-' :: rest => (true, rest)
  | '+' :: rest => (false, rest)
  | rest => (false, rest)

/-- The parts of an unsigned numeral, as digits. -/
structure Numeral where
  whole : List Char
  /-- The digits after the point, if there is a point. -/
  fraction : Option (List Char)
  /-- Whether the exponent is negative and its digits, if there is an exponent. -/
  exponent : Option (Bool × List Char)

namespace Numeral

/-- Reads a whole text as a numeral. Digits may be missing on either side of the point; an exponent
needs one. -/
def ofChars? (cs : List Char) : Option Numeral :=
  let (whole, rest) := spanDigits cs
  let (fraction, rest) := match rest with
    | '.' :: rest => let (digits, rest) := spanDigits rest; (some digits, rest)
    | rest => (none, rest)
  match rest with
  | [] => some ⟨whole, fraction, none⟩
  | mark :: rest =>
    if mark = 'e' || mark = 'E' then
      let (negative, digits) := splitSign rest
      if !digits.isEmpty && digits.all isDigit then some ⟨whole, fraction, some (negative, digits)⟩
      else none
    else none

def isWhole (numeral : Numeral) : Bool := numeral.fraction.isNone && numeral.exponent.isNone

/-- Whether the whole part is a single zero or starts with another digit, and a point is followed by
a digit. -/
def isCanonical (numeral : Numeral) : Bool :=
  !numeral.whole.isEmpty && (numeral.whole == ['0'] || numeral.whole.head? != some '0') &&
    numeral.fraction != some []

def power (numeral : Numeral) : Int :=
  match numeral.exponent with
  | none => 0
  | some (true, digits) => -(natOfDigits digits : Int)
  | some (false, digits) => natOfDigits digits

def value (negative : Bool) (numeral : Numeral) : Binary64 :=
  let fraction := numeral.fraction.getD []
  Binary64.ofDecimal negative (natOfDigits (numeral.whole ++ fraction))
    (numeral.power - fraction.length)

end Numeral

/-- Reads a whole text as a number: a sign, then `inf`, `infinity` or `nan` in any case, or a
numeral with a digit on at least one side of its point. -/
def ofText? (text : String) : Option Binary64 :=
  let (negative, body) := splitSign text.toList
  match String.ofList (body.map Char.toLower) with
  | "inf" => some (.infinite negative)
  | "infinity" => some (.infinite negative)
  | "nan" => some .nan
  | _ => match Numeral.ofChars? body with
    | none => none
    | some numeral =>
      if numeral.whole.isEmpty && (numeral.fraction.getD []).isEmpty then none
      else some (numeral.value negative)

end AtomicCss.Numeric
