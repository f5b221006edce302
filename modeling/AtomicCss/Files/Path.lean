import AtomicCss.Text.Blank
import AtomicCss.Text.Search

/-!
Paths as they are spelled.

A path is a text of pieces between slashes. Its components are the pieces that lead somewhere: empty
pieces do not, and a single dot only counts at the start. Paths compare by their components, so one
location may have several spellings of equal rank.
-/

namespace AtomicCss

structure Path where
  text : String
  deriving DecidableEq, Repr

namespace Path

/-- A step of a path, in the order in which paths compare. -/
inductive Component where
  | root
  | current
  | parent
  | name (text : String)
  deriving DecidableEq, Repr

namespace Component

def order : Component → Nat
  | root => 0
  | current => 1
  | parent => 2
  | name _ => 3

def text : Component → String
  | name text => text
  | _ => ""

def before (first second : Component) : Bool :=
  first.order < second.order || (first.order == second.order && first.text < second.text)

def ofPiece : String → Component
  | "." => current
  | ".." => parent
  | text => name text

end Component

def pieces (path : Path) : List String :=
  (Text.Chars.split (· == '/') path.text.toList).map String.ofList

def isAbsolute (path : Path) : Bool := Text.hasPrefix "/" path.text

def isStep (piece : String) : Bool := piece ≠ "" && piece ≠ "."

def firstComponent? (path : Path) (piece : String) : Option Component :=
  if piece.isEmpty then if path.isAbsolute then some .root else none
  else some (.ofPiece piece)

def components (path : Path) : List Component :=
  match path.pieces with
  | [] => []
  | first :: rest =>
    (path.firstComponent? first).toList ++ (rest.filter isStep).map Component.ofPiece

def componentsBefore : List Component → List Component → Bool
  | [], [] => false
  | [], _ :: _ => true
  | _ :: _, [] => false
  | first :: firsts, second :: seconds =>
    first.before second || (first == second && componentsBefore firsts seconds)

def same (first second : Path) : Bool := first.components == second.components

def before (first second : Path) : Bool := componentsBefore first.components second.components

def join (path : Path) (name : String) : Path :=
  if path.text.isEmpty || Text.hasSuffix "/" path.text then ⟨path.text ++ name⟩
  else ⟨path.text ++ "/" ++ name⟩

/-- Where another path leads from the folder of this one; an absolute path starts anew. -/
def append (path other : Path) : Path := if other.isAbsolute then other else path.join other.text

def dropCurrent (path : Path) : Path := ⟨Text.dropPrefix "./" path.text⟩

def fileName? (path : Path) : Option String :=
  match path.components.getLast? with
  | some (.name text) => some text
  | _ => none

def extensionOf? (name : String) : Option String :=
  match (Text.Chars.splitOnce? '.' name.toList.reverse) with
  | some (extension, _ :: _) => some (String.ofList extension.reverse)
  | _ => none

def extension? (path : Path) : Option String := path.fileName?.bind extensionOf?

/-- Drops the pieces at the end that lead nowhere. -/
def dropIdle : List String → List String
  | [] => []
  | piece :: rest =>
    match dropIdle rest with
    | [] => if isStep piece then [piece] else []
    | kept => piece :: kept

/-- The path without its last component; none if nothing or only the root is left to drop. -/
def parent? (path : Path) : Option Path :=
  match path.components.getLast? with
  | none | some .root => none
  | some _ =>
    match path.pieces with
    | [] => none
    | first :: rest => match dropIdle rest with
      | [] => some ⟨""⟩
      | kept =>
        let text := "/".intercalate (first :: dropIdle kept.dropLast)
        some ⟨if text.isEmpty then "/" else text⟩

/-- Puts a path into a rising list, unless one with the same components is there. -/
def insert (path : Path) : List Path → List Path
  | [] => [path]
  | first :: rest =>
    if path.same first then first :: rest
    else if path.before first then path :: first :: rest
    else first :: insert path rest

/-- The paths in rising order; of several spellings of one path the first stays. -/
def sort (paths : List Path) : List Path := paths.foldl (fun sorted path => path.insert sorted) []

end Path

end AtomicCss
