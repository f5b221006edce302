import AtomicCss.Files.Ignore.Rule
import AtomicCss.Files.Tree

/-!
The ignore files around an entry.

An entry is judged by the ignore files of all folders around it, innermost first. `.ignore` files
come before `.gitignore` files, and those before the excludes of the repository; the last two only
count inside a repository, and not across its border.

Globs are matched with paths as they are spelled, and not with locations. So a folder only shortens
the paths that begin with its own spelling.
-/

namespace AtomicCss

/-- The ignore files of a folder. -/
structure IgnoreLevel where
  /-- The folder as it is spelled, without the `./` that it may start with. -/
  root : Path
  own : List IgnoreRule
  shared : List IgnoreRule
  excluded : List IgnoreRule
  /-- Whether the folder is the root of a repository. -/
  isRepository : Bool

namespace IgnoreLevel

def rulesAt (tree : FileTree) (path : Path) : List IgnoreRule :=
  ((tree.text? path).map IgnoreRule.ofText).getD []

def firstLine? (tree : FileTree) (path : Path) : Option String := do
  let line ← (IgnoreRule.lines (← tree.text? path)).head?
  return String.ofList line

/-- The folder of a repository that is shared by its working folders, where `pointer` is a file that
leads to it. Paths in such files start from the working folder of the program. -/
def sharedFolder? (tree : FileTree) (pointer : Path) : Option Path := do
  let folder : Path := ⟨← Text.stripPrefix? "gitdir: " (← firstLine? tree pointer)⟩
  let common ← firstLine? tree (folder.join "commondir")
  return if Text.hasPrefix "." common then folder.join common else ⟨common⟩

def excludesOf (tree : FileTree) (folder : Path) : List IgnoreRule :=
  let pointer := folder.join ".git"
  let repository? := match tree.get? pointer with
    | some (.file _) => sharedFolder? tree pointer
    | _ => some pointer
  match repository? with
  | some repository => rulesAt tree (repository.join "info/exclude")
  | none => []

def ofFolder (usesRepositories : Bool) (tree : FileTree) (folder : Path) : IgnoreLevel :=
  { root := folder.dropCurrent
    own := rulesAt tree (folder.join ".ignore")
    shared := if usesRepositories then rulesAt tree (folder.join ".gitignore") else []
    excluded := if usesRepositories then excludesOf tree folder else []
    isRepository := usesRepositories &&
      (tree.contains (folder.join ".git") || tree.contains (folder.join ".jj")) }

/-- What globs of the level are matched with for a path: what follows the folder, if the path begins
with its spelling. -/
def candidate (level : IgnoreLevel) (path : Path) : String :=
  let path := path.dropCurrent
  if level.root.same ⟨"."⟩ || !path.text.toList.contains '/' then path.text
  else match Text.stripPrefix? level.root.text path.text with
    | some rest => Text.dropPrefix "/" rest
    | none => path.text

/-- The levels up to the innermost repository, each with the path that it judges. -/
def insideRepository : List (IgnoreLevel × Path) → List (IgnoreLevel × Path)
  | [] => []
  | (level, path) :: rest =>
    if level.isRepository then [(level, path)] else (level, path) :: insideRepository rest

def verdict? (levels : List (IgnoreLevel × Path)) (rules : IgnoreLevel → List IgnoreRule)
    (isFolder : Bool) : Option Bool :=
  levels.findSome? fun (level, path) =>
    IgnoreRule.verdict? (rules level) (level.candidate path) isFolder

def ignores (levels : List (IgnoreLevel × Path)) (isFolder : Bool) : Bool :=
  let near := if levels.any (·.1.isRepository) then insideRepository levels else []
  ((verdict? levels own isFolder).or
    ((verdict? near shared isFolder).or (verdict? near excluded isFolder))).getD false

end IgnoreLevel

/-- What lies around a walk. -/
structure IgnoreScope where
  usesRepositories : Bool
  tree : FileTree
  /-- The folder that the walk starts in, as it is spelled. -/
  base : Path
  /-- Where that folder lies. -/
  home : Location
  /-- The levels of the folders around it, innermost first. -/
  outer : List IgnoreLevel

namespace IgnoreScope

def around (usesRepositories : Bool) (tree : FileTree) (base : Path) (home : Location) :
    IgnoreScope :=
  let folders := (List.range home.length).reverse.map fun depth => Location.path (home.take depth)
  ⟨usesRepositories, tree, base, home, folders.map (IgnoreLevel.ofFolder usesRepositories tree)⟩

def levelOf (scope : IgnoreScope) (folder : Path) : IgnoreLevel :=
  IgnoreLevel.ofFolder scope.usesRepositories scope.tree folder

def absolute (scope : IgnoreScope) (path : Path) : Path :=
  let rest := if scope.base.same ⟨"."⟩ then path.text
    else Text.dropPrefix "/" (Text.dropPrefix scope.base.dropCurrent.text path.text)
  (Location.path scope.home).append ⟨rest⟩

/-- Whether an entry of the walk is ignored; `levels` are those of the folders from the base on,
innermost first. -/
def ignores (scope : IgnoreScope) (levels : List IgnoreLevel) (path : Path) (isFolder : Bool) :
    Bool :=
  let path := path.dropCurrent
  IgnoreLevel.ignores
    (levels.map (·, path) ++ scope.outer.map (·, scope.absolute path)) isFolder

end IgnoreScope

end AtomicCss
