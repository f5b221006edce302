import AtomicCss.Config.Basic
import AtomicCss.Toml.MomentTable
import AtomicCss.Toml.Parser

/-!
Configurations from TOML documents.

The keys are `prefix`, `theme`, `media`, `theme_map` and `utils`; all others are ignored.
Breakpoints, utilities and the entries of utilities keep the order of the document, and their values
may be dates or times that are written as tables.
-/

namespace AtomicCss.Config

def textField? (document : Keyed Toml) (key : String) : Option String :=
  match document.get? key with
  | none => some ""
  | some value => value.text?

def tableField? (document : Keyed Toml) (key : String) : Option (Keyed Toml) :=
  match document.get? key with
  | none => some []
  | some value => value.entries?

def tokenText? : Toml → Option String
  | .text value => some value
  | .whole value => some (toString value)
  | .float value => some (Numeric.stylesheetText value)
  | _ => none

def tokenEntries? (entries : Keyed Toml) : Option (List (String × String)) :=
  entries.mapM fun (name, value) => (tokenText? value).map (name, ·)

def scaleEntries? (entries : Keyed Toml) : Option (List (String × List (String × String))) :=
  entries.mapM fun (scale, tokens) => do return (scale, ← tokenEntries? (← tokens.entries?))

def textEntries? (entries : Keyed Toml) : Option (List (String × String)) :=
  entries.mapM fun (key, value) => value.text?.map (key, ·)

/-- The fields of a document, before anything else is checked. -/
structure Document where
  namePrefix : String
  scales : List (String × List (String × String))
  media : Keyed Toml
  bindings : NameMap String
  utilities : Keyed Toml

def Document.ofToml? (document : Keyed Toml) : Option Document := do
  let namePrefix ← textField? document "prefix"
  let scales ← scaleEntries? (← tableField? document "theme")
  let media ← Toml.settleEntries? (← tableField? document "media")
  let bindings ← textEntries? (← tableField? document "theme_map")
  let utilities ← Toml.settleEntries? (← tableField? document "utils")
  return ⟨namePrefix, scales, media, .ofList bindings, utilities⟩

mutual

def styleValue (path : String) : Toml → Except ConfigFault StyleValue
  | .text value => .ok (.text value)
  | .whole value => .ok (.number (Binary64.ofInt value))
  | .float value => .ok (.number value)
  | .array items => do return .list (← styleItems path 0 items)
  | .table entries => do return .node (← styleEntries path entries)
  | .bool _ | .moment _ => .error (.notCss path)

def styleItems (path : String) (index : Nat) : List Toml → Except ConfigFault (List StyleValue)
  | [] => .ok []
  | item :: rest => do
    let item ← styleValue (itemPath path index) item
    return item :: (← styleItems path (index + 1) rest)

def styleEntries (path : String) : List (String × Toml) → Except ConfigFault StyleNode
  | [] => .ok []
  | (key, value) :: rest => do
    let value ← styleValue (path ++ "." ++ key) value
    return (key, value) :: (← styleEntries path rest)

end

def addMedia (config : Config) : List (String × Toml) → Except ConfigFault Config
  | [] => .ok config
  | (name, .text query) :: rest => addMedia (config.addBreakpoint name query) rest
  | (name, _) :: _ => .error (.queryNotText name)

def addTemplates (config : Config) : List (String × Toml) → Except ConfigFault Config
  | [] => .ok config
  | (name, .table entries) :: rest => do
    let body ← styleEntries ("utils." ++ name) entries
    addTemplates (config.addUtility name (.template body)) rest
  | (name, _) :: _ => .error (.utilityNotTable ("utils." ++ name))

def ofDocument (document : Document) : Except ConfigFault Config := do
  let config := { initial with namePrefix := document.namePrefix }
  let config :=
    document.scales.foldl (fun config (scale, tokens) => config.addScale scale tokens) config
  let config ← addMedia config document.media
  let config :=
    document.bindings.toList.foldl (fun config (key, scale) => config.bind key scale) config
  let config ← addTemplates config document.utilities
  config.validate

def ofText (path text : String) : Except ConfigError Config :=
  match (TomlText.document? text).bind Document.ofToml? with
  | none => .error (.malformed path)
  | some document => (ofDocument document).mapError .invalid

end AtomicCss.Config
