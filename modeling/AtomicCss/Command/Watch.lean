import AtomicCss.Command.Build

/-!
What a watching build watches.

Each input and the configuration file has a root: the folder before the first sign of a glob, the
folder of a file, or the path itself.
-/

namespace AtomicCss.Watch

def isSlash (c : Char) : Bool := c == '/' || c == '\\'

/-- The text before the last slash; a slash at the start is kept. -/
def beforeLastSlash (cs : List Char) : List Char :=
  match cs.reverse.dropWhile fun c => !isSlash c with
  | [] => ['.']
  | [slash] => [slash]
  | _ :: before => before.reverse

def plainRoot (input : String) : Path :=
  let path : Path := ⟨input⟩
  if input.toList.getLast?.any isSlash then path
  else if path.extension?.isSome then path.parent?.getD ⟨"."⟩
  else path

def rootOf (input : String) : Path :=
  let root : Path :=
    if Build.isGlob input then
      ⟨String.ofList
        (beforeLastSlash (input.toList.takeWhile fun c => !Build.globSigns.contains c))⟩
    else plainRoot input
  if root.text.isEmpty then ⟨"."⟩ else root

def roots (inputs : List String) (config : Option String) : List Path :=
  (inputs ++ config.toList).foldl (fun roots input =>
    let root := rootOf input
    if roots.any root.same then roots else roots ++ [root]) []

end AtomicCss.Watch
