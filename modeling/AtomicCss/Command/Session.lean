import AtomicCss.Command.Basic
import AtomicCss.Files.Tree

/-!
What a command does to the files and to the standard output, step by step.
-/

namespace AtomicCss

/-- What a command has done so far. -/
structure Session where
  files : FileTree
  /-- What was written to the standard output. -/
  printed : String
  /-- The files that were written, in order, with their contents. -/
  written : List (Path × String)

/-- A step of a command. One that fails leaves in the session what was done before. -/
abbrev CommandStep := ExceptT CommandError (StateM Session)

namespace CommandStep

def check {ε α : Type} (cause : ε → CommandError) (result : Except ε α) : CommandStep α :=
  liftM (result.mapError cause)

def print (text : String) : CommandStep Unit :=
  modify fun session => { session with printed := session.printed ++ text }

def writeFile (path : Path) (contents : String) : CommandStep Unit := do
  let files := (← get).files
  let parent := (path.parent?.filter fun parent => !parent.text.isEmpty)
  let files ← match parent with
    | none => pure files
    | some parent => match files.makeFolders? parent with
      | some files => pure files
      | none => throw (.folderNotMade parent)
  modify fun session => { session with files }
  match files.write? path contents with
  | none => throw (.notWritten path)
  | some files => modify fun session =>
    { session with files, written := session.written ++ [(path, contents)] }

end CommandStep

end AtomicCss
