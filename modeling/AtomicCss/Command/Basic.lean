import AtomicCss.Config.Basic
import AtomicCss.Files.Scan
import AtomicCss.Manifest.Basic

/-!
The commands of the command line, and what may go wrong with them.
-/

namespace AtomicCss

structure BuildOptions where
  /-- The file that the stylesheet is written to, in place of the standard output. -/
  output : Option String
  /-- The file that the class map is written to. -/
  classes : Option String
  minify : Bool
  config : Option String
  /-- Globs of files that are left out. -/
  ignored : List String
  deriving DecidableEq, Repr

def BuildOptions.initial : BuildOptions := ⟨none, none, false, none, []⟩

def BuildOptions.outputs (options : BuildOptions) : List String :=
  options.output.toList ++ options.classes.toList

inductive Command where
  | help
  /-- Lists manifests. -/
  | scan (inputs ignored : List String)
  /-- Compiles manifests into one stylesheet. -/
  | build (inputs : List String) (options : BuildOptions)
  /-- Builds, and builds again after changes; the interval of polling is in milliseconds. -/
  | watch (inputs : List String) (options : BuildOptions) (poll : Bool) (interval : Nat)
  deriving DecidableEq, Repr

inductive CommandError where
  | unknownCommand (name : String)
  | noInputs (command : String)
  | missingValue (command flag : String)
  | pollWithoutWatch
  | badInterval (flag text : String)
  | config (error : ConfigError)
  | scan (error : ScanError)
  | manifest (error : ManifestError)
  | folderNotMade (path : Path)
  | notWritten (path : Path)
  | notWatched (path : Path)
  deriving DecidableEq, Repr

def CommandError.message : CommandError → String
  | unknownCommand name => "unknown command: " ++ name
  | noInputs command => command ++ " requires at least one path or glob pattern"
  | missingValue command flag => command ++ " requires a value for " ++ flag
  | pollWithoutWatch => "--poll is only supported with watch"
  | badInterval flag text => flag ++ " requires a positive integer, got '" ++ text ++ "'"
  | config error => error.message
  | scan error => error.message
  | manifest error => error.message
  | folderNotMade path => "failed to create directory " ++ path.text
  | notWritten path => "failed to write " ++ path.text
  | notWatched path => "failed to watch " ++ path.text

end AtomicCss
