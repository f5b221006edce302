import AtomicCss.Text.Blank
import AtomicCss.Text.Search

/-!
Nested selectors.

A selector key is a list of parts between commas. Each part is combined with every owner: `&` stands
for the owner, and a part without it describes a descendant. A selector with no owner stands alone.
-/

namespace AtomicCss.Selector

def owner : Char := '&'

def mentionsOwner (cs : List Char) : Bool := cs.contains owner

/-- The characters that start a selector and no property. -/
def starters : List Char := ['>', '+', '~', '.', ':', '#', '[', '*']

/-- Whether a key can only name a selector. -/
def isKey (key : String) : Bool :=
  mentionsOwner key.toList || Text.startsWithAny starters.contains key

def depthAfter (depth : Nat) (c : Char) : Nat :=
  if c = '(' || c = '[' then depth + 1
  else if c = ')' || c = ']' then depth - 1
  else depth

def cut (depth : Nat) : List Char → List (List Char)
  | [] => [[]]
  | c :: cs =>
    if c = ',' ∧ depth = 0 then [] :: cut depth cs
    else match cut (depthAfter depth c) cs with
      | [] => [[c]]
      | piece :: pieces => (c :: piece) :: pieces

def parts (cs : List Char) : List (List Char) :=
  ((cut 0 cs).map Text.Chars.trim).filter fun part => !part.isEmpty

def combine (owning part : List Char) : List Char :=
  Text.Chars.collapse
    (if mentionsOwner part then Text.Chars.replaceChar owner owning part else owning ++ ' ' :: part)

/-- The selectors of a key below its owners. Without owners no part may mention one. -/
def nest? (owners : List String) (key : String) : Option (List String) :=
  let parts := parts key.toList
  if owners.isEmpty then
    if parts.any mentionsOwner then none
    else some (parts.map fun part => String.ofList (Text.Chars.collapse part))
  else
    some (parts.flatMap fun part => owners.map fun owning =>
      String.ofList (combine owning.toList part))

end AtomicCss.Selector
