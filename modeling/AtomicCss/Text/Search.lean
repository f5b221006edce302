/-!
Looking for a pattern in a text: prefixes, the first occurrence of a separator, and replacement.
-/

namespace AtomicCss.Text

namespace Chars

def stripPrefix? : (pattern : List Char) → List Char → Option (List Char)
  | [], cs => some cs
  | _ :: _, [] => none
  | p :: pattern, c :: cs => if p = c then stripPrefix? pattern cs else none

def splitOnce? (separator : Char) : List Char → Option (List Char × List Char)
  | [] => none
  | c :: cs =>
    if c = separator then some ([], cs)
    else (splitOnce? separator cs).map fun (before, after) => (c :: before, after)

def replaceChar (target : Char) (replacement : List Char) (cs : List Char) : List Char :=
  cs.flatMap fun c => if c = target then replacement else [c]

/-- The walk behind `replaceAll`: `skip` counts the characters that an occurrence still covers. -/
def replaceFrom (pattern replacement : List Char) : (skip : Nat) → List Char → List Char
  | _, [] => []
  | skip + 1, _ :: cs => replaceFrom pattern replacement skip cs
  | 0, c :: cs =>
    if pattern.isPrefixOf (c :: cs) then
      replacement ++ replaceFrom pattern replacement (pattern.length - 1) cs
    else c :: replaceFrom pattern replacement 0 cs

/-- Writes `replacement` for every occurrence of a non-empty pattern, from the left and without
overlaps. -/
def replaceAll (pattern replacement cs : List Char) : List Char :=
  if pattern.isEmpty then cs else replaceFrom pattern replacement 0 cs

end Chars

def stripPrefix? (pattern text : String) : Option String :=
  (Chars.stripPrefix? pattern.toList text.toList).map String.ofList

def dropPrefix (pattern text : String) : String := (stripPrefix? pattern text).getD text

def hasPrefix (pattern text : String) : Bool := pattern.toList.isPrefixOf text.toList

def hasSuffix (pattern text : String) : Bool := pattern.toList.isSuffixOf text.toList

def splitOnce? (separator : Char) (text : String) : Option (String × String) :=
  (Chars.splitOnce? separator text.toList).map fun (before, after) =>
    (String.ofList before, String.ofList after)

def replaceChar (target : Char) (replacement text : String) : String :=
  String.ofList (Chars.replaceChar target replacement.toList text.toList)

def replaceAll (pattern replacement text : String) : String :=
  String.ofList (Chars.replaceAll pattern.toList replacement.toList text.toList)

def startsWithAny (isMember : Char → Bool) (text : String) : Bool :=
  match text.toList with
  | [] => false
  | c :: _ => isMember c

def dropStart (isMember : Char → Bool) (text : String) : String :=
  String.ofList (text.toList.dropWhile isMember)

end AtomicCss.Text
