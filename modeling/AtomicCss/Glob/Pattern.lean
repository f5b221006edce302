/-!
Regular patterns over bytes.

Bytes are read one by one: `partials` answers the patterns of which one must accept what follows a
byte. A pattern has finitely many of them, so reading keeps a short list.
-/

namespace AtomicCss.Glob

/-- A class of bytes: those in some range, or all others. -/
structure ByteSet where
  negated : Bool
  /-- The first and the last byte of each range. -/
  ranges : List (UInt8 × UInt8)
  deriving DecidableEq, Repr

namespace ByteSet

def all : ByteSet := ⟨true, []⟩

def single (byte : UInt8) : ByteSet := ⟨false, [(byte, byte)]⟩

def except (byte : UInt8) : ByteSet := ⟨true, [(byte, byte)]⟩

def contains (set : ByteSet) (byte : UInt8) : Bool :=
  (set.ranges.any fun (first, last) => first ≤ byte && byte ≤ last) != set.negated

end ByteSet

inductive Pattern where
  /-- Accepts the empty list of bytes. -/
  | blank
  | byte (set : ByteSet)
  | seq (first second : Pattern)
  | either (first second : Pattern)
  | star (body : Pattern)
  deriving DecidableEq, Repr

namespace Pattern

/-- One pattern after another; a blank one leaves no trace. -/
def followedBy : Pattern → Pattern → Pattern
  | blank, second => second
  | first, blank => first
  | first, second => seq first second

def row (patterns : List Pattern) : Pattern := patterns.foldr followedBy blank

def acceptsBlank : Pattern → Bool
  | blank => true
  | byte _ => false
  | seq first second => first.acceptsBlank && second.acceptsBlank
  | either first second => first.acceptsBlank || second.acceptsBlank
  | star _ => true

def partials (c : UInt8) : Pattern → List Pattern
  | blank => []
  | byte set => if set.contains c then [blank] else []
  | seq first second =>
    (first.partials c).map (·.followedBy second) ++
      if first.acceptsBlank then second.partials c else []
  | either first second => first.partials c ++ second.partials c
  | star body => (body.partials c).map (·.followedBy (star body))

def anyAccepts (patterns : List Pattern) : List UInt8 → Bool
  | [] => patterns.any acceptsBlank
  | c :: rest => anyAccepts (patterns.flatMap (partials c)).eraseDups rest

def accepts (pattern : Pattern) (bytes : List UInt8) : Bool := anyAccepts [pattern] bytes

end Pattern

end AtomicCss.Glob
