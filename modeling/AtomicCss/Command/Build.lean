import AtomicCss.Command.Session
import AtomicCss.Config.OfToml
import AtomicCss.Manifest.Compilation
import AtomicCss.Stylesheet.Layout

/-!
Builds: manifests on a tree of files, compiled into one stylesheet.

An input that exists and holds no sign of a glob is a path; every other input is a glob. A build
leaves out what it writes itself.
-/

namespace AtomicCss

namespace Build

def globSigns : List Char := ['*', '?', '[', '\x7b']

def isGlob (input : String) : Bool := input.toList.any globSigns.contains

def isPath (tree : FileTree) (input : String) : Bool := !isGlob input && tree.contains ⟨input⟩

def globbed (tree : FileTree) (sources : List String) (options : BuildOptions) :
    Except ScanError (List Path) :=
  if sources.isEmpty then .ok []
  else do
    let result ← Scan.globs tree sources (options.ignored ++ options.outputs) Scan.defaultOptions
    return result.files

def isOutput (tree : FileTree) (options : BuildOptions) (path : Path) : Bool :=
  match tree.location? path with
  | some location => options.outputs.any fun output => tree.location? ⟨output⟩ == some location
  | none => false

def listed (tree : FileTree) (inputs : List String) (options : BuildOptions) :
    Except ScanError (List Path) :=
  if inputs.isEmpty then .ok []
  else do
    let result ← Scan.paths tree (inputs.map Path.mk)
    let ignored ← Scan.parseGlobs options.ignored
    return result.files.filter fun path =>
      !ignored.any (·.accepts path.text) && !isOutput tree options path

def manifests (tree : FileTree) (inputs : List String) (options : BuildOptions) :
    Except ScanError (List Path) := do
  let (paths, sources) := inputs.partition (isPath tree)
  let globbed ← globbed tree sources options
  let listed ← listed tree paths options
  return Path.sort (globbed ++ listed)

def configOf (tree : FileTree) : Option String → Except ConfigError Config
  | none => .ok .initial
  | some path => match tree.text? ⟨path⟩ with
    | some text => Config.ofText path text
    | none => .error (.unreadable path)

def compileAll (tree : FileTree) (compilation : Compilation) :
    List Path → Except ManifestError Compilation
  | [] => .ok compilation
  | path :: rest => match tree.text? path with
    | none => .error (.unreadable path.text)
    | some text => match compilation.run (Compilation.addText path.text text) with
      | (.ok _, compilation) => compileAll tree compilation rest
      | (.error error, _) => .error error

def header : String := "/*! generated by ironstyle */"

def stylesheet (css : String) (minify : Bool) : String :=
  if minify then header ++ css ++ "\n" else header ++ "\n" ++ Layout.pretty css

/-- Compiles the manifests of some inputs and writes the stylesheet and the class map. -/
def run (inputs : List String) (options : BuildOptions) : CommandStep Unit := do
  let tree := (← get).files
  let config ← CommandStep.check .config (configOf tree options.config)
  let paths ← CommandStep.check .scan (manifests tree inputs options)
  let start := ⟨Engine.start Engine.drain config false, .empty⟩
  let compilation ← CommandStep.check .manifest (compileAll tree start paths)
  let css := stylesheet compilation.engine.cssText options.minify
  match options.output with
  | some output => CommandStep.writeFile ⟨output⟩ css
  | none => CommandStep.print css
  match options.classes with
  | some classes => CommandStep.writeFile ⟨classes⟩ (compilation.classes.toJson.pretty ++ "\n")
  | none => return

end Build

end AtomicCss
