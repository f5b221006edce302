import AtomicCss.Json.Basic
import AtomicCss.Numeric.Format
import AtomicCss.Text.Hex

/-!
JSON text of values, on one line or laid out.
-/

namespace AtomicCss.Json

/-- JSON numbers keep a fraction digit; they are written without an exponent from `10 ^ -5` to below
`10 ^ 16`, and a tie goes to the even digit. -/
def numberFormat : Numeric.NumberFormat :=
  ⟨.even, fun exponent => -5 ≤ exponent && exponent < 16, true⟩

/-- A number that is not finite has no JSON text; it is written as `null`. -/
def floatText : Binary64 → List Char
  | .finite negative significand exponent => numberFormat.finite negative significand exponent
  | _ => "null".toList

/-- A character inside a string: quotes, backslashes and control characters are escaped. -/
def escape (c : Char) : List Char :=
  if c = '"' then ['\\', '"']
  else if c = '\\' then ['\\', '\\']
  else if c = '\n' then ['\\', 'n']
  else if c = '\r' then ['\\', 'r']
  else if c = '\t' then ['\\', 't']
  else if c.toNat = 8 then ['\\', 'b']
  else if c.toNat = 12 then ['\\', 'f']
  else if c.toNat < 0x20 then
    ['\\', 'u', '0', '0', Text.Hex.digit (c.toNat / 16), Text.Hex.digit (c.toNat % 16)]
  else [c]

def quote (text : String) : List Char := '"' :: text.toList.flatMap escape ++ ['"']

mutual

def compactChars : Json → List Char
  | .null => "null".toList
  | .bool true => "true".toList
  | .bool false => "false".toList
  | .whole value => (toString value).toList
  | .float value => floatText value
  | .text value => quote value
  | .array items => '[' :: compactItems items ++ [']']
  | .object fields => '\x7b' :: compactFields fields ++ ['\x7d']

def compactItems : List Json → List Char
  | [] => []
  | [item] => compactChars item
  | item :: rest => compactChars item ++ ',' :: compactItems rest

def compactFields : List (String × Json) → List Char
  | [] => []
  | [(key, value)] => quote key ++ ':' :: compactChars value
  | (key, value) :: rest => quote key ++ ':' :: compactChars value ++ ',' :: compactFields rest

end

def compact (json : Json) : String := String.ofList (compactChars json)

/-- A line break and the indentation of a nesting level: two spaces for each. -/
def newline (level : Nat) : List Char := '\n' :: List.replicate (2 * level) ' '

mutual

def prettyChars (level : Nat) : Json → List Char
  | .array [] => ['[', ']']
  | .array items => '[' :: prettyItems (level + 1) items ++ newline level ++ [']']
  | .object [] => ['\x7b', '\x7d']
  | .object fields => '\x7b' :: prettyFields (level + 1) fields ++ newline level ++ ['\x7d']
  | atom => compactChars atom

def prettyItems (level : Nat) : List Json → List Char
  | [] => []
  | [item] => newline level ++ prettyChars level item
  | item :: rest => newline level ++ prettyChars level item ++ ',' :: prettyItems level rest

def prettyFields (level : Nat) : List (String × Json) → List Char
  | [] => []
  | [(key, value)] => newline level ++ quote key ++ ':' :: ' ' :: prettyChars level value
  | (key, value) :: rest =>
    newline level ++ quote key ++ ':' :: ' ' :: prettyChars level value ++ ',' ::
      prettyFields level rest

end

def pretty (json : Json) : String := String.ofList (prettyChars 0 json)

end AtomicCss.Json
