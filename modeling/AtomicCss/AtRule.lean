import AtomicCss.Text.Blank
import AtomicCss.Text.Search

/-!
At-rules: breakpoints, descriptor blocks, and the text of a rule inside its at-rules.
-/

namespace AtomicCss

/-- Names of breakpoints and their media queries, narrowest use first. -/
abbrev Breakpoints := List (String × String)

namespace Breakpoints

def query? (breakpoints : Breakpoints) (name : String) : Option String :=
  (breakpoints.find? (fun entry => entry.1 = name)).map (·.2)

def names (breakpoints : Breakpoints) : List String := breakpoints.map (·.1)

end Breakpoints

namespace AtRule

def mediaPrefix : String := "@media "

def ofKey (breakpoints : Breakpoints) (key : String) : String :=
  match breakpoints.query? (Text.dropStart (· == '@') key) with
  | some query => mediaPrefix ++ query
  | none => Text.collapse key

/-- At-rules whose blocks hold descriptors and need no selector. -/
def descriptors : List String :=
  ["@font-face", "@page", "@property", "@counter-style", "@font-palette-values"]

def isDescriptor (key : String) : Bool := descriptors.contains ((Text.words key).headD key)

/-- The place of an at-rule among the breakpoints, counted from one. -/
def breakpointRank? (breakpoints : Breakpoints) (atRule : String) : Option Nat := do
  let query ← Text.stripPrefix? mediaPrefix atRule
  let index ← breakpoints.findIdx? fun entry => entry.2 = query
  return index + 1

/-- The rank of a conditional rule: that of its last breakpoint, or zero without one. -/
def conditionalRank (breakpoints : Breakpoints) (atRules : List String) : Nat :=
  (atRules.filterMap (breakpointRank? breakpoints)).foldl max 0

/-- The kinds of at-rules around a rule. -/
inductive Wrapper where
  | media (query : String)
  | supports (query : String)
  | container (name : Option String) (query : String)
  | other (text : String)
  deriving DecidableEq, Repr

namespace Wrapper

/-- The name and the query after `@container`: a first word that opens no parenthesis is a name. -/
def containerOf (rest : String) : Wrapper :=
  match Text.splitOnce? ' ' rest with
  | some (name, query) =>
    if Text.hasPrefix "(" name then .container none rest
    else .container (some name) (Text.trim query)
  | none => .container none rest

def ofText (atRule : String) : Wrapper :=
  let atRule := Text.trim atRule
  match Text.stripPrefix? mediaPrefix atRule with
  | some query => .media (Text.trim query)
  | none => match Text.stripPrefix? "@supports " atRule with
    | some query => .supports (Text.trim query)
    | none => match Text.stripPrefix? "@container " atRule with
      | some rest => containerOf (Text.trim rest)
      | none => .other atRule

/-- A condition in parentheses, unless it stands in some or starts with a negation. -/
def supportsCondition (query : String) : String :=
  let query := Text.trim query
  if query.isEmpty then "()"
  else if (Text.hasPrefix "(" query && Text.hasSuffix ")" query) || Text.hasPrefix "not " query then
    query
  else "(" ++ query ++ ")"

def header : Wrapper → String
  | media query => mediaPrefix ++ query
  | supports query => "@supports " ++ supportsCondition query
  | container (some name) query => "@container " ++ name ++ " " ++ query
  | container none query => "@container " ++ query
  | other text => text

end Wrapper

def block (header body : String) : String := header ++ "\x7b" ++ body ++ "\x7d"

def wrap (atRules : List String) (rule : String) : String :=
  atRules.foldr (fun atRule inner => block (Wrapper.ofText atRule).header inner) rule

end AtRule

end AtomicCss
