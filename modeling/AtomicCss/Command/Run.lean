import AtomicCss.Command.Arguments
import AtomicCss.Command.Watch

/-!
Running commands on a tree of files.
-/

namespace AtomicCss

namespace Command

def helpText : String := "\n".intercalate [
  "ironstyle",
  "",
  "USAGE:",
  "  ironstyle scan [--ignore <glob>] <glob...>",
  "  ironstyle build [--output <path>] [--classes <path>] [--minify] [--config <path>]" ++
    " [--ignore <glob>] <glob...>",
  "  ironstyle watch [--output <path>] [--classes <path>] [--minify] [--config <path>]" ++
    " [--ignore <glob>] [--poll] [--poll-interval <ms>] <glob...>",
  "",
  "EXAMPLES:",
  "  ironstyle scan \"styles/**/*.json\"",
  "  ironstyle build --output dist/app.css --classes dist/classes.json \"styles/**/*.json\"",
  "  ironstyle build -c ironstyle.toml --minify \"styles/**/*.json\"",
  "  ironstyle watch --poll --poll-interval 250 -o dist/app.css \"styles/**/*.json\"",
  ""]

def runScan (inputs ignored : List String) : CommandStep Unit := do
  let result ← CommandStep.check .scan (Scan.globs (← get).files inputs ignored Scan.defaultOptions)
  CommandStep.print (String.join (result.files.map fun path => path.text ++ "\n"))

def checkRoots (poll : Bool) (roots : List Path) : CommandStep Unit := do
  let files := (← get).files
  match roots.find? fun root => !poll && !files.contains root with
  | some root => throw (.notWatched root)
  | none => return

/-- Runs a command up to the point where it would wait for changes. -/
def run : Command → CommandStep Unit
  | help => CommandStep.print helpText
  | scan inputs ignored => runScan inputs ignored
  | build inputs options => Build.run inputs options
  | watch inputs options poll _ => do
    Build.run inputs options
    checkRoots poll (Watch.roots inputs options.config)

def runOn (command : Command) (files : FileTree) : Except CommandError Unit × Session :=
  StateT.run (ExceptT.run command.run) ⟨files, "", []⟩

end Command

end AtomicCss
