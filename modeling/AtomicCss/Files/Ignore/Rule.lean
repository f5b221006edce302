import AtomicCss.Glob.Basic
import AtomicCss.Text.Blank
import AtomicCss.Text.Search

/-!
The lines of ignore files.

A line is a glob for what lies in the folder of its file. The last line that matches decides; lines
that start with `!` restore what others ignore.
-/

namespace AtomicCss

structure IgnoreRule where
  glob : Glob
  /-- Whether the rule restores what it matches. -/
  restores : Bool
  foldersOnly : Bool

namespace IgnoreRule

/-- What is left of a line without the blanks at its end; an escaped space stays. -/
def trimLine (line : String) : String :=
  if Text.hasSuffix "\\ " line then line else String.ofList (Text.Chars.trimEnd line.toList)

/-- A glob before it is tied to its folder. -/
structure Draft where
  restores : Bool
  /-- Whether the glob only matches from the folder of its file on. -/
  anchored : Bool
  glob : List Char

def readStart : List Char → Draft
  | '\\' :: '!' :: rest => ⟨false, false, '!' :: rest⟩
  | '\\' :: '#' :: rest => ⟨false, false, '#' :: rest⟩
  | '!' :: '/' :: rest => ⟨true, true, rest⟩
  | '!' :: rest => ⟨true, false, rest⟩
  | '/' :: rest => ⟨false, true, rest⟩
  | glob => ⟨false, false, glob⟩

def readEnd (glob : List Char) : Bool × List Char :=
  match glob.reverse with
  | '/' :: '\\' :: rest => (true, rest.reverse)
  | '/' :: rest => (true, rest.reverse)
  | _ => (false, glob)

/-- A glob without a slash matches at any depth. -/
def atAnyDepth (anchored : Bool) (glob : String) : String :=
  if anchored || glob.toList.contains '/' || glob = "**" then glob else "**/" ++ glob

/-- Two stars at the end match what is in a folder and not the folder. -/
def insideFolder (glob : String) : String :=
  if Text.hasSuffix "/**" glob then glob ++ "/*" else glob

def ofLine? (line : String) : Option IgnoreRule := do
  let line := trimLine line
  if line.isEmpty || Text.hasPrefix "#" line then none
  let draft := readStart line.toList
  let (foldersOnly, glob) := readEnd draft.glob
  let source := insideFolder (atAnyDepth draft.anchored (String.ofList glob))
  return ⟨← Glob.parse? .ignoreFile source, draft.restores, foldersOnly⟩

def dropReturn (line : List Char) : List Char :=
  match line.reverse with
  | '\r' :: rest => rest.reverse
  | _ => line

/-- The lines of a text. A carriage return belongs to the end of a line, but not to the end of the
text. -/
def lines (text : String) : List (List Char) :=
  let pieces := Text.Chars.split (· == '\n') text.toList
  pieces.dropLast.map dropReturn ++ (pieces.getLast?.filter fun line => !line.isEmpty).toList

def ofText (text : String) : List IgnoreRule :=
  let text := Text.dropStart (· == Char.ofNat 0xFEFF) text
  (lines text).filterMap fun line => ofLine? (String.ofList line)

def verdict? (rules : List IgnoreRule) (path : String) (isFolder : Bool) : Option Bool :=
  (rules.reverse.find? fun rule => (isFolder || !rule.foldersOnly) && rule.glob.accepts path).map
    fun rule => !rule.restores

end IgnoreRule

end AtomicCss
