import AtomicCss.Glob.Parser

/-!
Globs: patterns for the texts of paths.

A path is matched as it is spelled, byte by byte.
-/

namespace AtomicCss

structure Glob where
  source : String
  items : List Glob.Item
  dialect : Glob.Dialect

namespace Glob

def parse? (dialect : Dialect) (source : String) : Option Glob := do
  let reading ← Reading.start.readAll? dialect source.toList
  return ⟨source, ← reading.items?, dialect⟩

/-- The pattern of all texts that the glob matches. Two stars alone match everything. -/
def pattern (glob : Glob) : Pattern :=
  match glob.items with
  | [.leading] => Item.anything
  | items => Item.rowPattern glob.dialect.crossesFolders items

def accepts (glob : Glob) (path : String) : Bool := glob.pattern.accepts (Text.utf8 path)

end Glob

end AtomicCss
