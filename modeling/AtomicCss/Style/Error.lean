/-!
What can be wrong with a style, by cause, and the wording of each cause.
-/

namespace AtomicCss

/-- How a style object fails to follow its grammar. -/
inductive Fault where
  | malformedJson
  | rootNotObject (found : String)
  | notCssValue (found : String)
  | compoundFound (found : String)
  | emptyKey
  | selectorWithoutBlock
  | declarationOutsideSelector
  | ownerMissing
  | misplacedStatement
  | emptyList
  | mixedList
  | notFinite
  | utilityRefusesBlock (utility : String)
  | groupsExpected
  | groupValuesExpected
  | variantNotBlock
  | compoundsExpected
  | compoundNotBlock
  | compoundCssNotBlock
  | predicateNotScalar
  | defaultsExpected
  | defaultNotScalar
  | unknownBreakpoint
  | selectionNotScalar
  | branchNotScalar
  | elementNotText
  | classNotText
  | themeName (name : String)
  | scalesExpected
  | tokensExpected
  | tokenNotScalar
  deriving DecidableEq, Repr

namespace Fault

def message : Fault → String
  | malformedJson => "malformed JSON"
  | rootNotObject found => "expected an object, found " ++ found
  | notCssValue found => found ++ " is not a CSS value"
  | compoundFound found => "compound variant must be an object, found " ++ found
  | emptyKey => "empty keys are not allowed"
  | selectorWithoutBlock => "selector keys need a style object"
  | declarationOutsideSelector => "declaration outside of a selector"
  | ownerMissing => "'&' needs an enclosing selector"
  | misplacedStatement => "at-rule statements are only allowed at the root of global styles"
  | emptyList => "empty value list"
  | mixedList => "mixed lists are not allowed"
  | notFinite => "numbers must be finite"
  | utilityRefusesBlock utility => "utility '" ++ utility ++ "' does not accept nested objects"
  | groupsExpected => "expected an object of variant groups"
  | groupValuesExpected => "expected an object of variant values"
  | variantNotBlock => "variant value must be a style object"
  | compoundsExpected => "expected a list of compound variants"
  | compoundNotBlock => "compound variant must be an object"
  | compoundCssNotBlock => "expected a style object"
  | predicateNotScalar => "compound predicates must be scalar values"
  | defaultsExpected => "expected an object"
  | defaultNotScalar => "default variant must be a scalar value"
  | unknownBreakpoint => "unknown breakpoint"
  | selectionNotScalar => "variant values must be scalars"
  | branchNotScalar => "responsive variant values must be scalars"
  | elementNotText => "expected an element name"
  | classNotText => "expected a string"
  | themeName name => "theme name '" ++ name ++ "' must be a single non-empty class name"
  | scalesExpected => "expected an object of scales"
  | tokensExpected => "expected an object of tokens"
  | tokenNotScalar => "token values must be strings or numbers"

end Fault

inductive StyleError where
  /-- A reference or an override names no token of the theme. -/
  | unknownToken (scale token : String)
  /-- A selection names a value that its group does not declare and has no default for. -/
  | unknownVariantValue (group value : String)
  /-- A value at a key path does not follow the grammar of style objects. -/
  | invalid (path : String) (fault : Fault)
  /-- Utilities expand one another past the limit. -/
  | utilityCycle (utility : String) (depth : Nat)
  deriving DecidableEq, Repr

namespace StyleError

def message : StyleError → String
  | unknownToken scale token => "unknown token $" ++ scale ++ "$" ++ token
  | unknownVariantValue group value =>
    "unknown value '" ++ value ++ "' for variant '" ++ group ++ "'"
  | invalid path fault => "invalid style value at '" ++ path ++ "': " ++ fault.message
  | utilityCycle utility depth =>
    "utility '" ++ utility ++ "' expanded past depth " ++ toString depth ++
      "; utilities probably reference each other"

end StyleError

def keyPath (path key : String) : String := if path.isEmpty then key else path ++ "." ++ key

def itemPath (path : String) (index : Nat) : String := path ++ "[" ++ toString index ++ "]"

end AtomicCss
