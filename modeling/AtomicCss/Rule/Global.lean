import AtomicCss.Rule.Flat
import AtomicCss.Sheet.Basic

/-!
The texts of global styles and keyframes.

Declarations that were written in one block under one selector share a rule, even when other blocks
come between them; rules of different blocks are never joined. A root statement such as `@import` is
a text of its own.
-/

namespace AtomicCss

namespace GlobalRule

/-- A text under construction. -/
inductive Draft where
  | statement (text : String)
  | rule (block : Nat) (atRules : List String) (selector : String) (declarations : List String)
  deriving DecidableEq, Repr

def isStatement (rule : FlatRule) : Bool :=
  Text.hasPrefix "@" rule.property && rule.selector.isEmpty && rule.atRules.isEmpty

def declaration (rule : FlatRule) : String := rule.property ++ ":" ++ rule.value

/-- Adds a declaration to the draft of its block, selector and at-rules, or starts one. -/
def takeUp (flat : FlatRule) : List Draft → List Draft
  | [] => [.rule flat.block flat.atRules flat.selector [declaration flat]]
  | .statement text :: rest => .statement text :: takeUp flat rest
  | .rule block atRules selector declarations :: rest =>
    if block = flat.block ∧ atRules = flat.atRules ∧ selector = flat.selector then
      .rule block atRules selector (declarations ++ [declaration flat]) :: rest
    else .rule block atRules selector declarations :: takeUp flat rest

def add (drafts : List Draft) (flat : FlatRule) : List Draft :=
  if isStatement flat then drafts ++ [.statement (flat.property ++ " " ++ flat.value ++ ";")]
  else takeUp flat drafts

/-- The group and the text of a draft. Descriptors stand in their at-rules without a selector. -/
def Draft.finish : Draft → SheetGroup × String
  | statement text => (.imports, text)
  | rule _ atRules selector declarations =>
    let body := ";".intercalate declarations
    (.global, AtRule.wrap atRules (if selector.isEmpty then body else AtRule.block selector body))

end GlobalRule

/-- The texts of flat rules, ordered by their first flat rule. -/
def globalRules (rules : List FlatRule) : List (SheetGroup × String) :=
  (rules.foldl GlobalRule.add []).map GlobalRule.Draft.finish

end AtomicCss
