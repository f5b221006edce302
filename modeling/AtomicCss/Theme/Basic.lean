import AtomicCss.Hash.Content
import AtomicCss.Name
import AtomicCss.NameMap
import AtomicCss.Style.Error
import AtomicCss.Text.Base36
import AtomicCss.Text.Blank

/-!
Themes: scales of tokens, each token a custom property.

The default theme declares every token of a configuration on `:root` and on its own class. A derived
theme declares only the tokens that it overrides, on its class, and sees all others of the default
theme; it never adds a token.
-/

namespace AtomicCss

/-- The raw values of tokens by scale and name. -/
abbrev ScaleMap := NameMap (NameMap String)

/-- A named value of a scale. -/
structure Token where
  namePrefix : String
  scale : String
  name : String
  value : String
  deriving DecidableEq, Repr

namespace Token

def property (token : Token) : String :=
  Name.customProperty token.namePrefix (token.scale ++ "-" ++ token.name)

def reference (token : Token) : String := "var(" ++ token.property ++ ")"

end Token

abbrev Scale := NameMap Token

structure Theme where
  name : String
  className : String
  /-- The selector that the custom properties are declared on. -/
  selector : String
  scales : NameMap Scale
  /-- The tokens that the theme declares, by scale and name. -/
  declared : List Token

namespace Theme

def entries (scales : ScaleMap) : List (String × String × String) :=
  scales.toList.flatMap fun (scale, tokens) => tokens.toList.map fun (name, value) =>
    (scale, name, value)

def classParts (kind : String) (scales : ScaleMap) : List String :=
  kind :: (entries scales).map fun (scale, name, value) => scale ++ "." ++ name ++ "=" ++ value

def generatedClass (namePrefix kind : String) (scales : ScaleMap) : String :=
  Name.prefixed namePrefix
    ("t-" ++ Text.Base36.encode (Hash.content (classParts kind scales)).toNat)

def register (scales : ScaleMap) (namePrefix : String) : Theme :=
  let className := generatedClass namePrefix "default" scales
  { name := "default"
    className
    selector := ":root,." ++ className
    scales := scales.mapValues fun scale tokens =>
      tokens.mapValues fun name value => ⟨namePrefix, scale, name, value⟩
    declared := (entries scales).map fun (scale, name, value) => ⟨namePrefix, scale, name, value⟩ }

def get? (theme : Theme) (scale token : String) : Option Token :=
  (theme.scales.get? scale).bind (·.get? token)

/-- The token of a scale, or an error that names it. -/
def resolve (theme : Theme) (scale token : String) : Except StyleError Token :=
  match theme.get? scale token with
  | some found => .ok found
  | none => .error (.unknownToken scale token)

def isEmpty (theme : Theme) : Bool := theme.scales.values.all NameMap.isEmpty

/-- Puts overriding tokens over the tokens of the same scale and name; each must exist. -/
def override (scales : NameMap Scale) : List Token → Except StyleError (NameMap Scale)
  | [] => .ok scales
  | token :: rest =>
    match scales.get? token.scale with
    | none => .error (.unknownToken token.scale token.name)
    | some scale =>
      if scale.contains token.name then
        override (scales.insert token.scale (scale.insert token.name token)) rest
      else .error (.unknownToken token.scale token.name)

/-- A theme name stands in class attributes, so it is one word. -/
def isUsableName (name : String) : Bool := !name.isEmpty && !Text.hasBlank name

/-- A theme with some tokens of the default theme overridden. Without a name its class is generated
from the overrides, and is its name too. -/
def derive (theme : Theme) (name : Option String) (overrides : ScaleMap) (namePrefix : String) :
    Except StyleError Theme := do
  let declared :=
    (entries overrides).map fun (scale, name, value) => Token.mk namePrefix scale name value
  let scales ← override theme.scales declared
  let className ← match name with
    | none => pure (generatedClass namePrefix "theme" overrides)
    | some name =>
      if isUsableName name then pure name
      else throw (.invalid "createTheme" (.themeName name))
  return {
    name := className, className, selector := Name.classSelector className, scales, declared }

end Theme

end AtomicCss
