import AtomicCss.Text.Hex

/-!
Names that the library generates, and how names stand in selectors.

A configured prefix sets the generated names of one configuration apart. In a selector a class name
is escaped; `unescape` reads the escapes back by the rules of CSS.
-/

namespace AtomicCss.Name

/-- A generated name behind its prefix and a dash, or alone if the prefix is empty. -/
def prefixed (namePrefix name : String) : String :=
  if namePrefix.isEmpty then name else namePrefix ++ "-" ++ name

def customProperty (namePrefix name : String) : String := "--" ++ prefixed namePrefix name

/-- Whether a character may stand unescaped in a selector: ASCII letters and digits, `-`, `_`, and
all that is not ASCII. -/
def isPlain (c : Char) : Bool := c.isAlphanum || c == '-' || c == '_' || 0x80 ≤ c.toNat

/-- A hex escape of an ASCII digit, closed by a space. -/
def escapeDigit (c : Char) : List Char := ['\\', '3', c, ' ']

def escapeChar (c : Char) : List Char := if isPlain c then [c] else ['\\', c]

namespace Chars

/-- Escapes a class name. A digit at the start, or second after a dash, needs a hex escape. -/
def escape : List Char → List Char
  | [] => []
  | '-' :: c :: rest =>
    if c.isDigit then '-' :: escapeDigit c ++ rest.flatMap escapeChar
    else '-' :: (c :: rest).flatMap escapeChar
  | c :: rest =>
    if c.isDigit then escapeDigit c ++ rest.flatMap escapeChar else (c :: rest).flatMap escapeChar

/-- How much of an escape the reader of a selector has seen. -/
inductive Reading where
  | plain
  | slash
  /-- The value of the hexadecimal digits so far and how many more may follow. -/
  | hex (value : Nat) (more : Nat)

/-- Reads escapes back: up to six hexadecimal digits, with one space after them, are a code point,
and any other escaped character is itself. -/
def unescape : Reading → List Char → List Char
  | .plain, [] | .slash, [] => []
  | .hex value _, [] => [Char.ofNat value]
  | .plain, c :: cs => if c = '\\' then unescape .slash cs else c :: unescape .plain cs
  | .slash, c :: cs => match Text.Hex.digit? c with
    | some value => unescape (.hex value 5) cs
    | none => c :: unescape .plain cs
  | .hex value more, c :: cs => match more, Text.Hex.digit? c with
    | more + 1, some digit => unescape (.hex (16 * value + digit) more) cs
    | _, _ =>
      if c = ' ' then Char.ofNat value :: unescape .plain cs
      else if c = '\\' then Char.ofNat value :: unescape .slash cs
      else Char.ofNat value :: c :: unescape .plain cs

end Chars

def unescape (text : String) : String := String.ofList (Chars.unescape .plain text.toList)

def escape (name : String) : String := String.ofList (Chars.escape name.toList)

def classSelector (name : String) : String := "." ++ escape name

end AtomicCss.Name
