import AtomicCss.Json.Basic
import AtomicCss.Numeric.Stepwise
import AtomicCss.Text.Hex

/-!
The tokens of JSON text.

Every function takes the characters that are left and answers what it read with what is left then. A
token may follow the grammar and still have no value.
-/

namespace AtomicCss.Json

inductive Token where
  | openObject
  | closeObject
  | openArray
  | closeArray
  | colon
  | comma
  /-- A string; none if it holds half of a surrogate pair. -/
  | text (content : Option String)
  /-- A number or a word; none if it is a number out of range. -/
  | atom (value : Option Json)

def isSpace (c : Char) : Bool := c == ' ' || c == '\t' || c == '\n' || c == '\r'

def simpleEscape? : Char → Option Char
  | '"' => some '"'
  | '\\' => some '\\'
  | '/' => some '/'
  | 'b' => some (Char.ofNat 8)
  | 'f' => some (Char.ofNat 12)
  | 'n' => some '\n'
  | 'r' => some '\r'
  | 't' => some '\t'
  | _ => none

def isHighSurrogate (unit : Nat) : Bool := 0xD800 ≤ unit && unit < 0xDC00

def isLowSurrogate (unit : Nat) : Bool := 0xDC00 ≤ unit && unit < 0xE000

def joinSurrogates (high low : Nat) : Char :=
  Char.ofNat (0x10000 + (high - 0xD800) * 0x400 + (low - 0xDC00))

/-- A part of a string. -/
inductive Piece where
  | char (value : Char)
  /-- An escape for sixteen bits: a character or half of a pair. -/
  | unit (value : Nat)

/-- The characters of parts, latest first, in front of others; none if half of a pair stands
alone. -/
def joinPieces? (after : List Char) : List Piece → Option (List Char)
  | [] => some after
  | .char c :: rest => joinPieces? (c :: after) rest
  | .unit low :: rest =>
    if isLowSurrogate low then
      match rest with
      | .unit high :: rest =>
        if isHighSurrogate high then joinPieces? (joinSurrogates high low :: after) rest else none
      | _ => none
    else if isHighSurrogate low then none
    else joinPieces? (Char.ofNat low :: after) rest

/-- Reads a string after its opening quote: its parts, latest first, behind those already read.
Control characters are refused. -/
def scanPieces? (read : List Piece) : List Char → Option (List Piece × List Char)
  | '"' :: rest => some (read, rest)
  | '\\' :: 'u' :: a :: b :: c :: d :: rest =>
    match Text.Hex.value? [a, b, c, d] with
    | some unit => scanPieces? (.unit unit :: read) rest
    | none => none
  | '\\' :: escape :: rest =>
    match simpleEscape? escape with
    | some c => scanPieces? (.char c :: read) rest
    | none => none
  | c :: rest => if c.toNat < 0x20 then none else scanPieces? (.char c :: read) rest
  | [] => none

theorem length_scanPieces? {read : List Piece} {cs : List Char} {found : List Piece × List Char}
    (scanned : scanPieces? read cs = some found) : found.2.length < cs.length := by
  fun_induction scanPieces? read cs
  case case1 => cases scanned; exact Nat.lt_succ_self _
  case case2 ih => have := ih scanned; simp only [List.length_cons]; omega
  case case4 ih => have := ih scanned; simp only [List.length_cons]; omega
  case case7 ih => have := ih scanned; simp only [List.length_cons]; omega
  all_goals cases scanned

def textOf? (pieces : List Piece) : Option String := (joinPieces? [] pieces).map String.ofList

def isNumberChar (c : Char) : Bool :=
  Numeric.isDigit c || c == '-' || c == '+' || c == '.' || c == 'e' || c == 'E'

/-- The number that a run of characters is, if it is one; it has no value out of range. Without a
fraction and an exponent it is whole if it fits 64 bits; minus zero is not. -/
def numeral? (cs : List Char) : Option (Option Json) :=
  let (negative, body) := match cs with
    | '-' :: body => (true, body)
    | body => (false, body)
  match Numeric.Numeral.ofChars? body with
  | none => none
  | some numeral =>
    let size := Numeric.natOfDigits numeral.whole
    if !numeral.isCanonical then none
    else if numeral.isWhole && !negative && size < UInt64.size then some (some (.whole size))
    else if numeral.isWhole && negative && 0 < size && size ≤ Nat.pow 2 63 then
      some (some (.whole (-(size : Int))))
    else
      let number := numeral.stepwise negative
      some (if number.isFinite then some (.float number) else none)

def word? (word : List Char) : Option Json :=
  match String.ofList word with
  | "null" => some .null
  | "true" => some (.bool true)
  | "false" => some (.bool false)
  | _ => none

def punctuation? : Char → Option Token
  | '\x7b' => some .openObject
  | '\x7d' => some .closeObject
  | '[' => some .openArray
  | ']' => some .closeArray
  | ':' => some .colon
  | ',' => some .comma
  | _ => none

def tokens? (cs : List Char) : Option (List Token) :=
  match cs with
  | [] => some []
  | c :: rest =>
    if isSpace c then tokens? rest
    else if c = '"' then
      match _scanned : scanPieces? [] rest with
      | none => none
      | some found => (tokens? found.2).map (.text (textOf? found.1) :: ·)
    else match punctuation? c with
      | some token => (tokens? rest).map (token :: ·)
      | none =>
        if isNumberChar c && c != 'e' && c != 'E' then
          match numeral? (c :: rest.takeWhile isNumberChar) with
          | none => none
          | some value => (tokens? (rest.dropWhile isNumberChar)).map (.atom value :: ·)
        else
          match word? (c :: rest.takeWhile Char.isAlpha) with
          | none => none
          | some value => (tokens? (rest.dropWhile Char.isAlpha)).map (.atom (some value) :: ·)
termination_by cs.length
decreasing_by
  · simp
  · have := length_scanPieces? _scanned
    simp only [List.length_cons]; omega
  · simp
  · have := (List.dropWhile_suffix isNumberChar (l := rest)).length_le
    simp only [List.length_cons]; omega
  · have := (List.dropWhile_suffix Char.isAlpha (l := rest)).length_le
    simp only [List.length_cons]; omega

end AtomicCss.Json
