import AtomicCss.Rule.Atomic
import AtomicCss.Rule.Global

/-!
The texts of rules, character by character.

A rule stands in braces behind the header of each at-rule around it, and its declarations stand in
braces behind its selector. Writing nests these parts; here they are spelled out from left to right.
-/

namespace AtomicCss

namespace Spelling

/-- Declarations of names and values: a colon in each, and a semicolon between two. -/
def declarations (entries : List (String × String)) : List Char :=
  [';'].intercalate (entries.map fun entry => entry.1.toList ++ ':' :: entry.2.toList)

theorem toList_declarations (entries : List (String × String)) :
    (";".intercalate (entries.map fun entry => entry.1 ++ ":" ++ entry.2)).toList =
      declarations entries := by
  simp [declarations, String.toList_intercalate, Function.comp_def]

/-- Declarations in braces behind a selector. -/
def rule (selector : List Char) (entries : List (String × String)) : List Char :=
  selector ++ '\x7b' :: (declarations entries ++ ['\x7d'])

/-- A text inside at-rules: the headers and their opening braces in front, and as many closing ones
behind it. -/
def inside (atRules : List String) (text : List Char) : List Char :=
  atRules.flatMap (fun atRule => (AtRule.Wrapper.ofText atRule).header.toList ++ ['\x7b']) ++
    (text ++ List.replicate atRules.length '\x7d')

end Spelling

theorem AtRule.toList_block (header body : String) :
    (block header body).toList = header.toList ++ '\x7b' :: (body.toList ++ ['\x7d']) := by
  simp [block]

theorem AtRule.toList_wrap (atRules : List String) (rule : String) :
    (wrap atRules rule).toList = Spelling.inside atRules rule.toList := by
  induction atRules with
  | nil => simp [wrap, Spelling.inside]
  | cons atRule rest ih =>
    have outermost : wrap (atRule :: rest) rule =
        block (Wrapper.ofText atRule).header (wrap rest rule) := rfl
    rw [outermost, toList_block, ih]
    simp [Spelling.inside, List.replicate_succ']

namespace AtomicDeclaration

/-- The rule of a declaration for a class: the class stands for the owner in the selector, and the
values are fallbacks, one behind another. -/
def spelled (declaration : AtomicDeclaration) (className : String) : List Char :=
  Spelling.inside declaration.atRules <|
    Spelling.rule
      (declaration.selector.toList.flatMap fun c =>
        if c = '&' then '.' :: (Name.escape className).toList else [c])
      (declaration.values.map fun value => (declaration.property, value))

theorem toList_body (declaration : AtomicDeclaration) :
    declaration.body.toList =
      Spelling.declarations
        (declaration.values.map fun value => (declaration.property, value)) := by
  rw [body, ← Spelling.toList_declarations, List.map_map]
  rfl

theorem toList_ruleText (declaration : AtomicDeclaration) (className : String) :
    (declaration.ruleText className).toList = declaration.spelled className := by
  rw [ruleText, AtRule.toList_wrap, AtRule.toList_block, toList_body, spelled, Spelling.rule]
  simp [Text.replaceChar, Text.Chars.replaceChar, Selector.owner, Name.classSelector]

end AtomicDeclaration

namespace GlobalRule

/-- Whether a rule is a statement: it has the name of an at-rule for a property, no selector and no
at-rules. -/
def States (rule : FlatRule) : Prop :=
  rule.property.toList.head? = some '@' ∧ rule.selector = "" ∧ rule.atRules = []

theorem isStatement_iff {rule : FlatRule} : isStatement rule = true ↔ States rule := by
  have starts : Text.hasPrefix "@" rule.property = true ↔
      rule.property.toList.head? = some '@' := by
    cases chars : rule.property.toList with
    | nil => simp [Text.hasPrefix, chars]
    | cons c rest =>
      simp only [Text.hasPrefix, chars, List.head?_cons, Option.some.injEq]
      simpa [List.isPrefixOf] using eq_comm
  simp only [isStatement, Bool.and_eq_true, starts, String.isEmpty_iff, List.isEmpty_iff,
    States, and_assoc]

/-- What the text of some rules holds: one statement, or the declarations of all of them, in order,
under the selector and in the at-rules that they share. Without a selector they stand in the
at-rules alone. -/
inductive Holds : List FlatRule → SheetGroup × String → Prop where
  | statement {rule : FlatRule} {text : String} : States rule →
      text.toList = rule.property.toList ++ ' ' :: (rule.value.toList ++ [';']) →
      Holds [rule] (.imports, text)
  | declarations {rules : List FlatRule} {atRules : List String} {selector text : String} :
      rules ≠ [] →
      (∀ rule ∈ rules, ¬ States rule ∧ rule.atRules = atRules ∧ rule.selector = selector) →
      (text.toList = Spelling.inside atRules
        (if selector = "" then
          Spelling.declarations (rules.map fun rule => (rule.property, rule.value))
        else Spelling.rule selector.toList (rules.map fun rule => (rule.property, rule.value)))) →
      Holds rules (.global, text)

end GlobalRule

end AtomicCss
