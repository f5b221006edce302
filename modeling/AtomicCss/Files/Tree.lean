import AtomicCss.Files.Path
import AtomicCss.Keyed

/-!
Trees of files, and the locations that paths lead to.

A location is the list of the names from the root, so every entry has one location and many paths. A
path is followed piece by piece, and each piece behind another needs a folder before it.
-/

namespace AtomicCss

inductive FileEntry where
  /-- A file and its text, if it holds text. -/
  | file (contents : Option String)
  | folder (entries : List (String × FileEntry))
  deriving Inhabited

/-- The names from the root to an entry. -/
abbrev Location := List String

def Location.path (location : Location) : Path := ⟨"/" ++ "/".intercalate location⟩

namespace FileEntry

def isFolder : FileEntry → Bool
  | folder _ => true
  | file _ => false

def at? (entry : FileEntry) : Location → Option FileEntry
  | [] => some entry
  | name :: rest => match entry with
    | folder entries => (Keyed.get? entries name).bind (·.at? rest)
    | file _ => none

def put (entry added : FileEntry) : Location → FileEntry
  | [] => added
  | name :: rest => match entry with
    | folder entries =>
      let child := (Keyed.get? entries name).getD (folder [])
      folder (Keyed.set entries name (put child added rest))
    | file contents => file contents

mutual

def allFiles (location : Location) : FileEntry → List (Location × Option String)
  | file contents => [(location, contents)]
  | folder entries => allFilesIn location entries

def allFilesIn (location : Location) : List (String × FileEntry) → List (Location × Option String)
  | [] => []
  | (name, entry) :: rest => allFiles (location ++ [name]) entry ++ allFilesIn location rest

end

end FileEntry

structure FileTree where
  root : FileEntry
  /-- The folder that relative paths start from. -/
  workingFolder : Location

namespace FileTree

def isFolderAt (root : FileEntry) (location : Location) : Bool :=
  (root.at? location).any FileEntry.isFolder

def follow? (root : FileEntry) (location : Location) : List String → Option Location
  | [] => some location
  | piece :: rest =>
    if !isFolderAt root location then none
    else if !Path.isStep piece then follow? root location rest
    else if piece = ".." then follow? root location.dropLast rest
    else if (root.at? (location ++ [piece])).isSome then follow? root (location ++ [piece]) rest
    else none

def startOf (tree : FileTree) (path : Path) : Location :=
  if path.isAbsolute then [] else tree.workingFolder

def location? (tree : FileTree) (path : Path) : Option Location :=
  if path.text.isEmpty then none else follow? tree.root (tree.startOf path) path.pieces

def get? (tree : FileTree) (path : Path) : Option FileEntry :=
  (tree.location? path).bind tree.root.at?

def contains (tree : FileTree) (path : Path) : Bool := (tree.get? path).isSome

def text? (tree : FileTree) (path : Path) : Option String :=
  match tree.get? path with
  | some (.file contents) => contents
  | _ => none

def makeFoldersFrom? (root : FileEntry) (location : Location) : List String → Option FileEntry
  | [] => some root
  | piece :: rest =>
    if !Path.isStep piece then makeFoldersFrom? root location rest
    else if piece = ".." then makeFoldersFrom? root location.dropLast rest
    else match root.at? (location ++ [piece]) with
      | some (.file _) => none
      | some (.folder _) => makeFoldersFrom? root (location ++ [piece]) rest
      | none =>
        let here := location ++ [piece]
        makeFoldersFrom? (root.put (.folder []) here) here rest

def makeFolders? (tree : FileTree) (path : Path) : Option FileTree :=
  (makeFoldersFrom? tree.root (tree.startOf path) path.pieces).map fun root => { tree with root }

def write? (tree : FileTree) (path : Path) (contents : String) : Option FileTree := do
  if path.text.isEmpty then none
  let name ← path.pieces.getLast?
  if !Path.isStep name || name = ".." then none
  let folder ← follow? tree.root (tree.startOf path) path.pieces.dropLast
  if !isFolderAt tree.root folder || isFolderAt tree.root (folder ++ [name]) then none
  return { tree with root := tree.root.put (.file (some contents)) (folder ++ [name]) }

end FileTree

end AtomicCss
