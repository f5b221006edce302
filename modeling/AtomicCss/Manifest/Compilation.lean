import AtomicCss.Engine.Replica
import AtomicCss.Manifest.Basic
import AtomicCss.Manifest.ClassMap

/-!
Compiling manifests into an engine.

Themes come first, then global styles, keyframes and styles, each in the order of the document. What
was compiled before an error stays.
-/

namespace AtomicCss

/-- What compiling manifests has made so far. -/
structure Compilation where
  engine : Engine
  classes : ClassMap

/-- How much a manifest held. -/
structure ManifestStats where
  styles : Nat
  renders : Nat
  deriving DecidableEq, Repr

namespace Compilation

/-- A step that may fail and leaves what it did. -/
abbrev Step := ExceptT ManifestError (StateM Compilation)

def withEngine {α : Type} (path part : String) (use : Engine → Except StyleError α × Engine) :
    Step α := do
  let compilation ← get
  let (result, engine) := use compilation.engine
  set { compilation with engine }
  liftM (result.mapError (ManifestError.style path part))

def check {α : Type} (path part : String) (result : Except StyleError α) : Step α :=
  liftM (result.mapError (ManifestError.style path part))

def record (change : ClassMap → ClassMap) : Step Unit :=
  modify fun compilation => { compilation with classes := change compilation.classes }

def tokenText (path : String) (json : Json) : Except StyleError String :=
  match json with
  | .text content => .ok content
  | json => match json.number? with
    | some value => .ok (Numeric.stylesheetText value)
    | none => .error (.invalid path .tokenNotScalar)

def tokensOf (path : String) : Json → Except StyleError (NameMap String)
  | .object tokens => do
    return .ofList (← tokens.mapM fun (token, value) => do
      return (token, ← tokenText (path ++ "." ++ token) value))
  | _ => .error (.invalid path .tokensExpected)

def scalesOf (path : String) : Json → Except StyleError ScaleMap
  | .object scales => do
    return .ofList (← scales.mapM fun (scale, tokens) => do
      return (scale, ← tokensOf (path ++ "." ++ scale) tokens))
  | _ => .error (.invalid path .scalesExpected)

def addTheme (path name : String) (scales : Json) : Step Unit := do
  let part := "themes." ++ name
  let overrides ← check path part (scalesOf part scales)
  let theme ← withEngine path part fun engine =>
      engine.createTheme Engine.drain (some name) overrides
  record fun classes => { classes with themes := classes.themes.insert name theme.className }

def addGlobal (path : String) (index : Nat) (json : Json) : Step Unit := do
  let part := itemPath "global" index
  let node ← check path part (StyleNode.ofJson json)
  withEngine path part fun engine => match engine.globalCss node with
    | .ok style => (.ok (), engine.apply Engine.drain style)
    | .error error => (.error error, engine)

def addKeyframes (path name : String) (json : Json) : Step Unit := do
  let part := "keyframes." ++ name
  let node ← check path part (StyleNode.ofJson json)
  let keyframes ← withEngine path part fun engine => engine.keyframes Engine.drain node
  record fun classes => { classes with keyframes := classes.keyframes.insert name keyframes.name }

def renderAll (path part : String) (component : Component) (index : Nat) :
    List (Keyed Json) → Step (List RenderedClass)
  | [] => return []
  | props :: rest => do
    let rendered ← withEngine path (itemPath (part ++ ".renders") index) fun engine =>
      engine.render component props
    let others ← renderAll path part component (index + 1) rest
    return ⟨rendered.element, rendered.className⟩ :: others

def defaultElement : String := "div"

/-- The props of a style's renders: a style that lists none is rendered once, without props. -/
def rendersOf (entry : StyleEntry) : List (Keyed Json) :=
  if entry.renders.isEmpty then [[]] else entry.renders

def addStyle (path name : String) (json : Json) : Step Nat := do
  let part := "styles." ++ name
  let some entry := StyleEntry.ofJson? json | throw (.malformed path)
  let node ← check path part (StyleNode.ofJson entry.style)
  let component ← withEngine path part fun engine =>
    engine.styled (entry.element.getD defaultElement) node
  let renders ← renderAll path part component 0 (rendersOf entry)
  record fun classes => { classes with styles := classes.styles.insert name renders }
  return renders.length

def addGlobals (path : String) (index : Nat) : List Json → Step Unit
  | [] => return
  | json :: rest => do
    addGlobal path index json
    addGlobals path (index + 1) rest

def addManifest (path : String) (manifest : Manifest) : Step ManifestStats := do
  manifest.themes.forM fun (name, scales) => addTheme path name scales
  addGlobals path 0 manifest.global
  manifest.keyframes.forM fun (name, frames) => addKeyframes path name frames
  let renders ← manifest.styles.mapM fun (name, entry) => addStyle path name entry
  return ⟨renders.length, renders.foldr (· + ·) 0⟩

def addText (path text : String) : Step ManifestStats := do
  let some manifest := Manifest.ofText? text | throw (.malformed path)
  addManifest path manifest

/-- Runs a step from a compilation. -/
def run {α : Type} (compilation : Compilation) (step : Step α) :
    Except ManifestError α × Compilation :=
  StateT.run (ExceptT.run step) compilation

end Compilation

end AtomicCss
