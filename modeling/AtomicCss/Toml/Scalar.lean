import AtomicCss.Text.Blank
import AtomicCss.Text.Hex
import AtomicCss.Toml.Basic
import AtomicCss.Toml.Moment

/-!
TOML scalars: strings of four kinds, numbers, booleans, dates and times.
-/

namespace AtomicCss.TomlText

/-- Reads from the start of the characters and leaves the rest. -/
abbrev Reader (α : Type) := List Char → Option (α × List Char)

def isSpace (c : Char) : Bool := c == ' ' || c == '\t'

def skipSpace (cs : List Char) : List Char := cs.dropWhile isSpace

/-- The characters that may stand in comments and literal strings: a tab, and all but the control
characters of ASCII. -/
def isPrintable (c : Char) : Bool :=
  c == '\t' || (0x20 ≤ c.toNat && c.toNat ≤ 0x7E) || 0x80 ≤ c.toNat

/-- Drops a line break. -/
def newline? : List Char → Option (List Char)
  | '\n' :: cs => some cs
  | '\r' :: '\n' :: cs => some cs
  | _ => none

def skipNewline (cs : List Char) : List Char := (newline? cs).getD cs

def codePoint? (digits : List Char) : Option Char :=
  match Text.Hex.value? digits with
  | some code => if h : code.isValidChar then some (Char.ofNatAux code h) else none
  | none => none

def escape? : Reader Char
  | 'b' :: cs => some (Char.ofNat 8, cs)
  | 't' :: cs => some ('\t', cs)
  | 'n' :: cs => some ('\n', cs)
  | 'f' :: cs => some (Char.ofNat 12, cs)
  | 'r' :: cs => some ('\r', cs)
  | '"' :: cs => some ('"', cs)
  | '\\' :: cs => some ('\\', cs)
  | 'u' :: cs => if cs.length < 4 then none else (codePoint? (cs.take 4)).map (·, cs.drop 4)
  | 'U' :: cs => if cs.length < 8 then none else (codePoint? (cs.take 8)).map (·, cs.drop 8)
  | _ => none

/-- Reads a string on one line after its opening quote; in quotes of `"` escapes are read. -/
def lineText? (quote : Char) : (fuel : Nat) → (read : List Char) → Reader String
  | 0, _, _ => none
  | _, _, [] => none
  | fuel + 1, read, c :: cs =>
    if c = quote then some (String.ofList read.reverse, cs)
    else if c = '\\' ∧ quote = '"' then match escape? cs with
      | some (escaped, rest) => lineText? quote fuel (escaped :: read) rest
      | none => none
    else if isPrintable c then lineText? quote fuel (c :: read) cs
    else none

/-- A backslash at the end of a line: drops the line break and all blanks after it. -/
def lineContinuation? (cs : List Char) : Option (List Char) :=
  (newline? (skipSpace cs)).map skipBlank
where
  /-- Drops spaces and line breaks. -/
  skipBlank : List Char → List Char
    | '\r' :: '\n' :: cs => skipBlank cs
    | c :: cs => if isSpace c || c == '\n' then skipBlank cs else c :: cs
    | [] => []

/-- Reads a string over several lines after its opening quotes. Up to two quotes may stand right
before the closing three. -/
def blockText? (quote : Char) : (fuel : Nat) → (read : List Char) → Reader String
  | 0, _, _ => none
  | _, _, [] => none
  | fuel + 1, read, c :: cs =>
    if c = quote then
      let quotes := ((c :: cs).takeWhile (· == quote)).length
      if quotes < 3 then blockText? quote fuel (c :: read) cs
      else
        let inside := min (quotes - 3) 2
        some (String.ofList (List.replicate inside quote ++ read).reverse, cs.drop (inside + 2))
    else if c = '\\' ∧ quote = '"' then
      match lineContinuation? cs with
      | some rest => blockText? quote fuel read rest
      | none => match escape? cs with
        | some (escaped, rest) => blockText? quote fuel (escaped :: read) rest
        | none => none
    else if c = '\n' then blockText? quote fuel ('\n' :: read) cs
    else if c = '\r' then match cs with
      | '\n' :: rest => blockText? quote fuel ('\n' :: read) rest
      | _ => none
    else if isPrintable c then blockText? quote fuel (c :: read) cs
    else none

def quoted? : Reader String
  | '"' :: cs => lineText? '"' (cs.length + 1) [] cs
  | '\'' :: cs => lineText? '\'' (cs.length + 1) [] cs
  | _ => none

def text? : Reader String
  | '"' :: '"' :: '"' :: cs => blockText? '"' (cs.length + 1) [] (skipNewline cs)
  | '\'' :: '\'' :: '\'' :: cs => blockText? '\'' (cs.length + 1) [] (skipNewline cs)
  | cs => quoted? cs

/-- Drops the underscores between digits; none if one stands at an end or beside another. -/
def dropUnderscores? (isMember : Char → Bool) (cs : List Char) : Option (List Char) :=
  let runs := Text.Chars.split (· == '_') cs
  if runs.all fun run => !run.isEmpty && run.all isMember then some runs.flatten else none

def fit? (value : Int) : Option Toml :=
  if Int64.minValue.toInt ≤ value ∧ value ≤ Int64.maxValue.toInt then some (.whole value) else none

def radix? (base : Nat) (isMember : Char → Bool) (cs : List Char) : Option Toml := do
  let digits ← dropUnderscores? isMember cs
  let value ← digits.foldlM (fun value c => (Text.Hex.digit? c).map (base * value + ·)) 0
  fit? value

def isHexDigit (c : Char) : Bool := (Text.Hex.digit? c).isSome

def isOctalDigit (c : Char) : Bool := '0' ≤ c && c ≤ '7'

def isBinaryDigit (c : Char) : Bool := c == '0' || c == '1'

/-- A whole number in decimal digits, or a number with a fraction or an exponent. -/
def decimal? (negative : Bool) (cs : List Char) : Option Toml := do
  let (exponent, mantissa) := match cs.span (fun c => c != 'e' && c != 'E') with
    | (mantissa, []) => (none, mantissa)
    | (mantissa, _ :: exponent) => (some exponent, mantissa)
  let (fraction, whole) := match mantissa.span (· != '.') with
    | (whole, []) => (none, whole)
    | (whole, _ :: fraction) => (some fraction, whole)
  let whole ← dropUnderscores? Numeric.isDigit whole
  let fraction ← match fraction with
    | none => some none
    | some digits => (dropUnderscores? Numeric.isDigit digits).map some
  let exponent ← match exponent with
    | none => some none
    | some cs =>
      let (negative, digits) := Numeric.splitSign cs
      (dropUnderscores? Numeric.isDigit digits).map fun digits => some (negative, digits)
  let numeral : Numeric.Numeral := ⟨whole, fraction, exponent⟩
  if !numeral.isCanonical then none
  else if numeral.isWhole then
    let size : Int := Numeric.natOfDigits whole
    fit? (if negative then -size else size)
  else match numeral.value negative with
    | .infinite false => none
    | value => some (.float value)

def word? (word : List Char) : Option Toml :=
  match String.ofList word with
  | "true" => some (.bool true)
  | "false" => some (.bool false)
  | _ => match Toml.Moment.ofChars? word with
    | some text => some (.moment text)
    | none => match word with
      | '0' :: 'x' :: digits => radix? 16 isHexDigit digits
      | '0' :: 'o' :: digits => radix? 8 isOctalDigit digits
      | '0' :: 'b' :: digits => radix? 2 isBinaryDigit digits
      | cs =>
        let (negative, body) := Numeric.splitSign cs
        match String.ofList body with
        | "inf" => some (.float (.infinite negative))
        | "nan" => some (.float .nan)
        | _ => decimal? negative body

def isWordChar (c : Char) : Bool :=
  c.isAlphanum || c == '_' || c == '+' || c == '-' || c == '.' || c == ':'

def dateLength : Nat := 10

def scalarWord? : Reader Toml := fun cs =>
  let (word, rest) := cs.span isWordChar
  let (word, rest) := match rest with
    | ' ' :: c :: _ =>
      if word.length = dateLength ∧ (Toml.Moment.date? word).isSome ∧ Numeric.isDigit c then
        let (time, rest) := (rest.drop 1).span isWordChar
        (word ++ ' ' :: time, rest)
      else (word, rest)
    | _ => (word, rest)
  (word? word).map (·, rest)

end AtomicCss.TomlText
