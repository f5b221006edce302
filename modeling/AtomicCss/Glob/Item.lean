import AtomicCss.Glob.Pattern
import AtomicCss.Text.Utf8

/-!
The items that globs are made of, and the patterns of paths that they stand for.
-/

namespace AtomicCss.Glob

inductive Item where
  | literal (c : Char)
  /-- `?` -/
  | one
  /-- `*` -/
  | run
  /-- `**` and the slash behind it, at the start: any folders, or none. -/
  | leading
  /-- `**` and the slashes around it: any folders, or none. -/
  | between
  /-- `**` and the slash before it, at the end: everything inside a folder. -/
  | trailing
  /-- Characters in brackets. -/
  | oneOf (negated : Bool) (ranges : List (Char × Char))
  /-- Alternatives in braces. -/
  | group (branches : List (List Item))

namespace Item

def slash : UInt8 := 47

def slashPattern : Pattern := .byte (.single slash)

def anything : Pattern := .star (.byte .all)

def literalPattern (c : Char) : Pattern :=
  .row ((Text.utf8 (String.singleton c)).map fun byte => .byte (.single byte))

/-- The ranges of bytes that a range of characters stands for: a range joins the last byte of its
first character and the first byte of its last character, and the other bytes stand alone. -/
def byteRanges : Char × Char → List (UInt8 × UInt8)
  | (first, last) =>
    let alone := fun (byte : UInt8) => (byte, byte)
    let low := Text.utf8 (String.singleton first)
    if first = last then low.map alone
    else
      let high := Text.utf8 (String.singleton last)
      low.dropLast.map alone ++ low.getLast?.toList.zip high.head?.toList ++ high.tail.map alone

/-- What `?` and the repetitions of `*` stand for. -/
def wildcard (crossesFolders : Bool) : ByteSet := if crossesFolders then .all else .except slash

/-- Patterns of which one must accept; blank ones do not count. -/
def alternatives (patterns : List Pattern) : Pattern :=
  match patterns.filter (· ≠ .blank) with
  | [] => .blank
  | first :: rest => rest.foldl .either first

mutual

/-- The pattern of an item; `crossesFolders` tells whether `?` and `*` match slashes. -/
def pattern (crossesFolders : Bool) : Item → Pattern
  | literal c => literalPattern c
  | one => .byte (wildcard crossesFolders)
  | run => .star (.byte (wildcard crossesFolders))
  | leading => .either (.either .blank slashPattern) (.seq anything slashPattern)
  | between => .either slashPattern (.seq slashPattern (.seq anything slashPattern))
  | trailing => .seq slashPattern anything
  | oneOf negated ranges => .byte ⟨negated, ranges.flatMap byteRanges⟩
  | group branches => alternatives (branchPatterns crossesFolders branches)

def rowPattern (crossesFolders : Bool) : List Item → Pattern
  | [] => .blank
  | item :: rest => (item.pattern crossesFolders).followedBy (rowPattern crossesFolders rest)

def branchPatterns (crossesFolders : Bool) : List (List Item) → List Pattern
  | [] => []
  | branch :: rest => rowPattern crossesFolders branch :: branchPatterns crossesFolders rest

end

end Item

end AtomicCss.Glob
