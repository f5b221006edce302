/-!
Numbers written with the digits `0` to `9` and `a` to `z`.
-/

namespace AtomicCss.Text.Base36

def digits : List Char := "0123456789abcdefghijklmnopqrstuvwxyz".toList

def digit (value : Nat) : Char := digits.getD value '0'

/-- The digits of a positive number before those already written; none for zero. -/
def encodeOnto (value : Nat) (written : List Char) : List Char :=
  if h : value = 0 then written
  else encodeOnto (value / 36) (digit (value % 36) :: written)
termination_by value
decreasing_by omega

def encode (value : Nat) : String :=
  if value = 0 then "0" else String.ofList (encodeOnto value [])

end AtomicCss.Text.Base36
