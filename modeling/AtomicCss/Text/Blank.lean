/-!
Blank characters, and what is built on them: trimming, words and collapsed spacing.

A character is blank when it has the Unicode property White_Space. Every function has a core on
lists of characters and a form on strings that only converts.
-/

namespace AtomicCss.Text

def isBlank (c : Char) : Bool :=
  let code := c.toNat
  (9 ≤ code && code ≤ 13) || code == 0x20 || code == 0x85 || code == 0xA0 || code == 0x1680 ||
    (0x2000 ≤ code && code ≤ 0x200A) || code == 0x2028 || code == 0x2029 || code == 0x202F ||
    code == 0x205F || code == 0x3000

namespace Chars

def trimEnd (cs : List Char) : List Char := (cs.reverse.dropWhile isBlank).reverse

def trim (cs : List Char) : List Char := trimEnd (cs.dropWhile isBlank)

/-- The pieces between the characters of a class; there is always one more piece than separators. -/
def split (separator : Char → Bool) : List Char → List (List Char)
  | [] => [[]]
  | c :: cs =>
    if separator c then [] :: split separator cs
    else match split separator cs with
      | [] => [[c]]
      | piece :: pieces => (c :: piece) :: pieces

def words (cs : List Char) : List (List Char) :=
  (split isBlank cs).filter (fun word => !word.isEmpty)

def collapse (cs : List Char) : List Char := [' '].intercalate (words cs)

end Chars

def trim (text : String) : String := String.ofList (Chars.trim text.toList)

def words (text : String) : List String := (Chars.words text.toList).map String.ofList

def collapse (text : String) : String := String.ofList (Chars.collapse text.toList)

def hasBlank (text : String) : Bool := text.toList.any isBlank

def allBlank (text : String) : Bool := text.toList.all isBlank

end AtomicCss.Text
