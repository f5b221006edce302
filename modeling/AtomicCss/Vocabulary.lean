import AtomicCss.AtRule
import AtomicCss.Selector
import AtomicCss.Theme.Reference
import AtomicCss.Utility

/-!
What the keys of style objects mean in one configuration.
-/

namespace AtomicCss

/-- The utilities, breakpoints and tokens that style objects may use. -/
structure Vocabulary where
  scope : TokenScope
  utilities : NameMap Utility
  breakpoints : Breakpoints

inductive KeyKind where
  | property
  | utility
  | pseudoSelector
  | descendantSelector
  | atRule
  | atStatement
  | localToken
  deriving DecidableEq, Repr

namespace KeyKind

/-- What a key is, given its value: local tokens first, then utilities, then at-rules; of the rest,
a key with a block is a selector and any other a property. -/
def of (utilities : NameMap Utility) (key : String) (value : StyleValue) : KeyKind :=
  if Text.hasPrefix "$$" key then localToken
  else if utilities.contains key then utility
  else if Text.hasPrefix "@" key then if value.isBlock then atRule else atStatement
  else if !value.isBlock then property
  else if Selector.mentionsOwner key.toList then pseudoSelector
  else descendantSelector

end KeyKind

end AtomicCss
