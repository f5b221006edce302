import AtomicCss.Files.Ignore.Level

/-!
Finding manifests.

A scan of paths takes files as they are and looks for manifests in folders at any depth. A scan of
globs walks a folder and takes the manifests whose path some glob matches. Results are sorted, so
that builds do not depend on the order of folders.
-/

namespace AtomicCss

structure ScanResult where
  /-- The files found, each once. -/
  files : List Path
  /-- How often a file was found. -/
  scanned : Nat

inductive ScanError where
  | noGlobs
  | badGlob (source : String)
  | notFound (path : Path)
  deriving DecidableEq, Repr

def ScanError.message : ScanError → String
  | noGlobs => "scan_globs requires at least one pattern"
  | badGlob source => "invalid glob pattern '" ++ source ++ "'"
  | notFound path => "path not found: " ++ path.text

structure ScanOptions where
  /-- The folder to walk. -/
  base : Path
  usesRepositories : Bool
  includesPackages : Bool
  includesLockFiles : Bool

namespace Scan

def defaultOptions : ScanOptions := ⟨⟨"."⟩, true, false, false⟩

/-- Manifests have the extension `json`, in small or capital letters. -/
def isManifest (path : Path) : Bool :=
  match path.extension? with
  | some extension => extension.map Char.toLower = "json"
  | none => false

mutual

def manifestsAt (path : Path) : FileEntry → List Path
  | .file _ => [path]
  | .folder entries => manifestsIn path entries

def manifestsIn (path : Path) : List (String × FileEntry) → List Path
  | [] => []
  | (name, entry) :: rest =>
    let child := path.join name
    (if entry.isFolder || isManifest child then manifestsAt child entry else []) ++
      manifestsIn path rest

end

def resultOf (found : List Path) : ScanResult := ⟨Path.sort found, found.length⟩

def paths (tree : FileTree) (inputs : List Path) : Except ScanError ScanResult := do
  let found ← inputs.mapM fun path => match tree.get? path with
    | some entry => .ok (manifestsAt path entry)
    | none => .error (.notFound path)
  return resultOf found.flatten

/-- A file that a walk comes to: its path, and the same from the folder of the walk on. -/
structure Found where
  path : Path
  relative : String

mutual

/-- The files in an entry that are not ignored; `levels` are those of the folders around it. -/
def walk (scope : IgnoreScope) (levels : List IgnoreLevel) (found : Found) : FileEntry → List Found
  | .file _ => [found]
  | .folder entries => walkIn scope (scope.levelOf found.path :: levels) found entries

def walkIn (scope : IgnoreScope) (levels : List IgnoreLevel) (found : Found) :
    List (String × FileEntry) → List Found
  | [] => []
  | (name, entry) :: rest =>
    let path := found.path.join name
    (if scope.ignores levels path entry.isFolder then []
    else walk scope levels ⟨path, (Path.join ⟨found.relative⟩ name).text⟩ entry) ++
      walkIn scope levels found rest

end

def packageFolder : String := "node_modules"

def lockFiles : List String := ["package-lock.json", "npm-shrinkwrap.json"]

def isWanted (options : ScanOptions) (path : Path) : Bool :=
  (options.includesPackages || !path.components.contains (.name packageFolder)) &&
    (options.includesLockFiles || !path.fileName?.any lockFiles.contains) && isManifest path

def parseGlobs (sources : List String) : Except ScanError (List Glob) :=
  sources.mapM fun source => match Glob.parse? .commandLine source with
    | some glob => .ok glob
    | none => .error (.badGlob source)

/-- Whether a glob matches the path, as it was walked or from the folder of the walk on. -/
def Found.isMatched (found : Found) (globs : List Glob) : Bool :=
  globs.any fun glob => glob.accepts found.relative || glob.accepts found.path.text

/-- This path stands for the standard input, which holds no files. -/
def standardInput : Path := ⟨"-"⟩

def walkBase (tree : FileTree) (options : ScanOptions) : List Found :=
  if options.base.same standardInput then []
  else match tree.location? options.base with
    | none => []
    | some location => match tree.root.at? location with
      | none => []
      | some entry =>
        walk (.around options.usesRepositories tree options.base location) []
          ⟨options.base, ""⟩ entry

def globs (tree : FileTree) (sources ignored : List String) (options : ScanOptions) :
    Except ScanError ScanResult := do
  if sources.isEmpty then throw .noGlobs
  let globs ← parseGlobs sources
  let ignored ← parseGlobs ignored
  let found := (walkBase tree options).filter fun found =>
    found.isMatched globs && !found.isMatched ignored && isWanted options found.path
  return resultOf (found.map (·.path))

end Scan

end AtomicCss
