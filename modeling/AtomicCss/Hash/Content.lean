import AtomicCss.Hash.Blake3
import AtomicCss.Text.Utf8

/-!
Hashes of lists of texts.

A list of parts is framed before it is hashed: a fixed tag, then every part behind its length in
bytes. The frame can be read back, so two lists of parts share a frame only if they are equal.
-/

namespace AtomicCss.Hash

open Text (utf8)

def littleEndian : (count : Nat) → (value : Nat) → List UInt8
  | 0, _ => []
  | count + 1, value => value.toUInt8 :: littleEndian count (value / 256)

def framePart (part : String) : List UInt8 :=
  littleEndian 8 (utf8 part).length ++ utf8 part

/-- The tag that sets these hashes apart from other uses of the hash function. -/
def tag : String := "ironstyle:"

def frame (parts : List String) : List UInt8 := utf8 tag ++ parts.flatMap framePart

/-- A 64-bit hash of a list of parts: the first eight bytes of the digest, little end first. -/
def content (parts : List String) : UInt64 :=
  let digest := Blake3.digest (frame parts)
  (digest.get 0).toUInt64 ||| ((digest.get 1).toUInt64 <<< 32)

end AtomicCss.Hash
