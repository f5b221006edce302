import AtomicCss.Text.Blank
import AtomicCss.Text.Search

/-!
Stylesheet text laid out for reading: a line for each header, declaration and closing brace.

The text is read character by character. Braces and semicolons end a line, unless they stand inside
parentheses or quotes; a backslash inside quotes shields the next character. Root items are set
apart by blank lines.
-/

namespace AtomicCss.Layout

/-- What has been read and written so far. -/
structure State where
  written : List Char
  /-- The characters since the last line, latest first. -/
  pending : List Char
  depth : Nat
  parentheses : Nat
  quote : Option Char
  /-- Whether a backslash inside quotes came right before. -/
  shielded : Bool

def State.start : State := ⟨[], [], 0, 0, none, false⟩

def declaration (text : List Char) : List Char :=
  match text with
  | '@' :: _ => Text.Chars.trim text
  | _ => match Text.Chars.splitOnce? ':' text with
    | none => Text.Chars.trim text
    | some (name, value) => Text.Chars.trim name ++ ':' :: ' ' :: Text.Chars.trim value

def addLine (written : List Char) (depth : Nat) (line : List Char) : List Char :=
  (if written.isEmpty then [] else written ++ ['\n']) ++ List.replicate (2 * depth) ' ' ++ line

namespace State

def token (state : State) : List Char := Text.Chars.trim state.pending.reverse

def keep (state : State) (c : Char) : State := { state with pending := c :: state.pending }

def flushDeclaration (state : State) : State :=
  let token := state.token
  { state with
    written := if token.isEmpty then state.written
      else addLine state.written state.depth (declaration token ++ [';'])
    pending := [] }

def endItem (state : State) : State :=
  if state.depth = 0 then { state with written := state.written ++ ['\n'] } else state

def openBlock (state : State) : State :=
  let token := state.token
  { state with
    written := if token.isEmpty then state.written
      else addLine state.written state.depth (token ++ [' ', '\x7b'])
    pending := []
    depth := state.depth + 1 }

def closeBlock (state : State) : State :=
  let state := state.flushDeclaration
  let depth := state.depth - 1
  endItem { state with written := addLine state.written depth ['\x7d'], depth }

def quoted (state : State) (quote c : Char) : State :=
  let state := state.keep c
  if state.shielded then { state with shielded := false }
  else if c = '\\' then { state with shielded := true }
  else if c = quote then { state with quote := none }
  else state

def read (state : State) (c : Char) : State :=
  match state.quote with
  | some quote => state.quoted quote c
  | none =>
    if c = '"' ∨ c = '\'' then { state.keep c with quote := some c }
    else if c = '(' then { state.keep c with parentheses := state.parentheses + 1 }
    else if c = ')' then { state.keep c with parentheses := state.parentheses - 1 }
    else if 0 < state.parentheses then state.keep c
    else if c = '\x7b' then state.openBlock
    else if c = ';' then state.flushDeclaration.endItem
    else if c = '\x7d' then state.closeBlock
    else state.keep c

end State

def chars (css : List Char) : List Char :=
  let written := Text.Chars.trimEnd ((css.foldl State.read .start).flushDeclaration).written
  if written.isEmpty then [] else written ++ ['\n']

def pretty (css : String) : String := String.ofList (chars css.toList)

end AtomicCss.Layout
