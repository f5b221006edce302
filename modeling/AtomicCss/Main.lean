import AtomicCss.Command.Run

/-!
The command line program.

It loads the files around the working folder, runs the command on them, and carries out what the
command printed and wrote. A watch loads the files again from time to time and builds when they have
changed.
-/

namespace AtomicCss.Program

def readText? (entry : IO.FS.DirEntry) : IO (Option String) := do
  try
    return some (← IO.FS.readFile entry.path)
  catch _ =>
    return none

partial def load (entry : IO.FS.DirEntry) : IO (String × FileEntry) := do
  if ← entry.path.isDir then
    let entries ← entry.path.readDir
    return (entry.fileName, .folder (← entries.toList.mapM load))
  else
    return (entry.fileName, .file (← readText? entry))

def locationOf (path : String) : Location := (Path.pieces ⟨path⟩).filter Path.isStep

/-- The names of entries that matter in the folders around the working folder. -/
def outerNames : List String := [".ignore", ".gitignore", ".git"]

/-- Loads what an entry holds: all of it, or for a repository only its excludes. -/
def loadOuter (entry : IO.FS.DirEntry) : IO (String × FileEntry) := do
  if entry.fileName = ".git" then
    let excludes ← readText? ⟨entry.path, "info/exclude"⟩
    return (".git", .folder [("info", .folder [("exclude", .file excludes)])])
  else
    return (entry.fileName, .file (← readText? entry))

def loadOuterFolders (root : FileEntry) (location : Location) : IO FileEntry :=
  (List.range location.length).foldlM (fun root depth => do
    let outer := location.take depth
    let folder ← IO.FS.realPath ("/" ++ "/".intercalate outer)
    let entries := (← folder.readDir).toList.filter fun entry => outerNames.contains entry.fileName
    let root := if FileTree.isFolderAt root outer then root else root.put (.folder []) outer
    (← entries.mapM loadOuter).foldlM (fun root (name, entry) =>
      return root.put entry (outer ++ [name])) root) root

def realPath? (argument : String) : IO (Option String) := do
  try
    let path ← IO.FS.realPath argument
    return if ← path.pathExists then some path.toString else none
  catch _ =>
    return none

/-- Loads the file or folder that an argument leads to, if it lies outside of the working folder. -/
def loadArgument (workingFolder : Location) (root : FileEntry) (argument : String) :
    IO FileEntry := do
  let some path ← realPath? argument | return root
  let location := locationOf path
  if workingFolder.isPrefixOf location then return root
  match location.getLast? with
  | some name =>
    let parent ← IO.FS.realPath ("/" ++ "/".intercalate location.dropLast)
    let (_, entry) ← load ⟨parent, name⟩
    return root.put entry location
  | none => return root

/-- Loads the working folder, the ignore files around it, and what the arguments lead to. -/
def loadTree (arguments : List String) : IO FileTree := do
  let folder ← IO.currentDir
  let workingFolder := locationOf folder.toString
  let entries ← (← folder.readDir).toList.mapM load
  let root := FileEntry.put (.folder []) (.folder entries) workingFolder
  let root ← loadOuterFolders root workingFolder
  let root ← arguments.foldlM (loadArgument workingFolder) root
  return ⟨root, workingFolder⟩

def carryOut (session : Session) : IO Unit := do
  (← IO.getStdout).putStr session.printed
  for (path, contents) in session.written do
    if let some parent := path.parent? then
      if !parent.text.isEmpty then IO.FS.createDirAll parent.text
    IO.FS.writeFile path.text contents

/-- Runs a command on the files as they are now, and answers whether it succeeded. -/
def execute (arguments : List String) (command : Command) : IO Bool := do
  let (result, session) := command.runOn (← loadTree arguments)
  carryOut session
  match result with
  | .ok () => return true
  | .error error =>
    IO.eprintln ("error: " ++ error.message)
    return false

partial def watch (arguments : List String) (build : Command) (interval : Nat)
    (known : List (Location × Option String)) : IO Unit := do
  IO.sleep interval.toUInt32
  let tree ← loadTree arguments
  let files := tree.root.allFiles []
  if files != known then
    let _ ← execute arguments build
  watch arguments build interval ((← loadTree arguments).root.allFiles [])

/-- The time between two looks at the files when a watch does not poll, in milliseconds. -/
def lookInterval : Nat := 200

def run (arguments : List String) : IO UInt32 := do
  match Command.parse arguments with
  | .error error =>
    IO.eprintln ("error: " ++ error.message)
    return 1
  | .ok command =>
    if !(← execute arguments command) then return 1
    match command with
    | .watch inputs options poll interval =>
      watch arguments (.build inputs options) (if poll then interval else lookInterval)
        ((← loadTree arguments).root.allFiles [])
      return 0
    | _ => return 0

end AtomicCss.Program

def main (arguments : List String) : IO UInt32 := AtomicCss.Program.run arguments
