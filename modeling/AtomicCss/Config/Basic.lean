import AtomicCss.Theme.Binding
import AtomicCss.Vocabulary

/-!
Configurations: the prefix of generated names, the token scales, the breakpoints, the scale of each
property and the utilities.

`Config.validate` refuses names that could not be told from the rest of a style object or of a
value.
-/

namespace AtomicCss

structure Config where
  namePrefix : String
  scales : ScaleMap
  breakpoints : Breakpoints
  bindings : NameMap String
  utilities : NameMap Utility

/-- What a checked name names. -/
inductive NameKind where
  | scale
  | token
  | breakpoint
  deriving DecidableEq, Repr

def NameKind.text : NameKind → String
  | scale => "scale"
  | token => "token"
  | breakpoint => "breakpoint"

/-- Why a configuration is refused. -/
inductive ConfigFault where
  | badPrefix (namePrefix : String)
  | badName (kind : NameKind) (name : String)
  | reservedBreakpoint (name : String)
  | blankQuery (breakpoint : String)
  | repeatedBreakpoint (name : String)
  | badUtilityName (name : String)
  | queryNotText (breakpoint : String)
  | utilityNotTable (path : String)
  | notCss (path : String)
  deriving DecidableEq, Repr

def ConfigFault.message : ConfigFault → String
  | badPrefix namePrefix =>
    "prefix '" ++ namePrefix ++ "' may only contain ASCII letters, digits, '-' and '_'"
  | badName kind name =>
    kind.text ++ " name '" ++ name ++ "' must be non-empty and free of whitespace and '$'"
  | reservedBreakpoint name => "breakpoint name '" ++ name ++ "' is reserved"
  | blankQuery breakpoint => "breakpoint '" ++ breakpoint ++ "' has an empty media query"
  | repeatedBreakpoint name => "breakpoint '" ++ name ++ "' is declared twice"
  | badUtilityName name =>
    "utility name '" ++ name ++ "' collides with selector, at-rule or token syntax"
  | queryNotText breakpoint => "media query for breakpoint '" ++ breakpoint ++ "' must be a string"
  | utilityNotTable path => path ++ " must be a table"
  | notCss path => path ++ " holds a value that is not valid CSS"

inductive ConfigError where
  | unreadable (path : String)
  | malformed (path : String)
  | invalid (fault : ConfigFault)
  deriving DecidableEq, Repr

def ConfigError.message : ConfigError → String
  | unreadable path => "failed to read config " ++ path
  | malformed path => "failed to parse config " ++ path
  | invalid fault => "invalid config: " ++ fault.message

namespace Config

def initial : Config := ⟨"", .empty, [], Theme.defaultMap, .empty⟩

instance : Inhabited Config := ⟨initial⟩

def addScale (config : Config) (scale : String) (tokens : List (String × String)) : Config :=
  let current := (config.scales.get? scale).getD .empty
  { config with scales := config.scales.insert scale (current.insertAll tokens) }

def addToken (config : Config) (scale name value : String) : Config :=
  config.addScale scale [(name, value)]

def addBreakpoint (config : Config) (name query : String) : Config :=
  { config with breakpoints := config.breakpoints ++ [(name, query)] }

/-- Sets the scale that a property implies; the property may be spelled as in style objects. -/
def bind (config : Config) (key scale : String) : Config :=
  { config with bindings := config.bindings.insert (Property.ofKey key) scale }

def addUtility (config : Config) (name : String) (utility : Utility) : Config :=
  { config with utilities := config.utilities.insert name utility }

def isPrefixChar (c : Char) : Bool := c.isAlphanum || c == '-' || c == '_'

/-- Names are one word without the character that starts references. -/
def checkName (kind : NameKind) (name : String) : Except ConfigFault Unit :=
  if name.isEmpty || Text.hasBlank name || name.toList.contains '$' then .error (.badName kind name)
  else .ok ()

def checkScales : List (String × NameMap String) → Except ConfigFault Unit
  | [] => .ok ()
  | (scale, tokens) :: rest => do
    checkName .scale scale
    tokens.names.forM (checkName .token)
    checkScales rest

def checkBreakpoints (earlier : List String) : Breakpoints → Except ConfigFault Unit
  | [] => .ok ()
  | (name, query) :: rest => do
    checkName .breakpoint name
    if name = "initial" then throw (.reservedBreakpoint name)
    if Text.allBlank query then throw (.blankQuery name)
    if earlier.contains name then throw (.repeatedBreakpoint name)
    checkBreakpoints (name :: earlier) rest

/-- The characters that a utility name may not start with. -/
def reservedStarts : List Char := ['@', '&', '$', ':']

def checkUtilityName (name : String) : Except ConfigFault Unit :=
  if name.isEmpty || Text.startsWithAny reservedStarts.contains name || Text.hasBlank name then
    .error (.badUtilityName name)
  else .ok ()

def validate (config : Config) : Except ConfigFault Config := do
  if !config.namePrefix.toList.all isPrefixChar then throw (.badPrefix config.namePrefix)
  checkScales config.scales.toList
  checkBreakpoints [] config.breakpoints
  config.utilities.names.forM checkUtilityName
  return config

/-- What style objects mean under the configuration, with references resolved against a theme. -/
def vocabulary (config : Config) (theme : Theme) : Vocabulary :=
  { scope := { theme, bindings := config.bindings, namePrefix := config.namePrefix }
    utilities := config.utilities
    breakpoints := config.breakpoints }

def defaultTheme (config : Config) : Theme := Theme.register config.scales config.namePrefix

end Config

end AtomicCss
