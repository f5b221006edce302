/-!
The BLAKE3 hash of a list of bytes.

The input is cut into chunks of 1024 bytes and each chunk into blocks of 64. A chunk is hashed block
by block; chunks are joined by a binary tree in which every left subtree holds a power of two of
whole chunks and is at least as large as its sibling. Only the last compression, that of the root,
carries the root flag.
-/

namespace AtomicCss.Hash.Blake3

/-- Eight words that stand for all that was hashed so far. -/
abbrev ChainingValue := Vector UInt32 8

/-- Sixteen words: a message block or the state of a compression. -/
abbrev Block := Vector UInt32 16

def initial : ChainingValue :=
  #v[0x6A09E667, 0xBB67AE85, 0x3C6EF372, 0xA54FF53A, 0x510E527F, 0x9B05688C, 0x1F83D9AB, 0x5BE0CD19]

def chunkStart : UInt32 := 1

def chunkEnd : UInt32 := 2

def parent : UInt32 := 4

def root : UInt32 := 8

def chunkBytes : Nat := 1024

def blockBytes : Nat := 64

def rotateRight (word count : UInt32) : UInt32 := (word >>> count) ||| (word <<< (32 - count))

def quarter (state : Block) (a b c d : Fin 16) (x y : UInt32) : Block :=
  let wa := state[a] + state[b] + x
  let wd := rotateRight (state[d] ^^^ wa) 16
  let wc := state[c] + wd
  let wb := rotateRight (state[b] ^^^ wc) 12
  let wa := wa + wb + y
  let wd := rotateRight (wd ^^^ wa) 8
  let wc := wc + wd
  let wb := rotateRight (wb ^^^ wc) 7
  (((state.set a wa).set b wb).set c wc).set d wd

def round (state message : Block) : Block :=
  let state := quarter state 0 4 8 12 message[0] message[1]
  let state := quarter state 1 5 9 13 message[2] message[3]
  let state := quarter state 2 6 10 14 message[4] message[5]
  let state := quarter state 3 7 11 15 message[6] message[7]
  let state := quarter state 0 5 10 15 message[8] message[9]
  let state := quarter state 1 6 11 12 message[10] message[11]
  let state := quarter state 2 7 8 13 message[12] message[13]
  quarter state 3 4 9 14 message[14] message[15]

/-- The order in which the next round reads the message words. -/
def permute (m : Block) : Block :=
  #v[m[2], m[6], m[3], m[10], m[7], m[0], m[4], m[13], m[1], m[11], m[12], m[5], m[9], m[14],
    m[15], m[8]]

def rounds : (count : Nat) → (state message : Block) → Block
  | 0, state, _ => state
  | count + 1, state, message => rounds count (round state message) (permute message)

/-- A compression that has not been carried out: the root needs a flag of its own. -/
structure Node where
  chaining : ChainingValue
  block : Block
  counter : UInt64
  length : UInt32
  flags : UInt32

def Node.compress (node : Node) (extraFlags : UInt32) : ChainingValue :=
  let h := node.chaining
  let state : Block := rounds 7
    #v[h[0], h[1], h[2], h[3], h[4], h[5], h[6], h[7],
      initial[0], initial[1], initial[2], initial[3],
      node.counter.toUInt32, (node.counter >>> 32).toUInt32, node.length, node.flags ||| extraFlags]
    node.block
  Vector.ofFn fun i : Fin 8 => state[i.val] ^^^ state[i.val + 8]

/-- The word at an index of a block, little end first; missing bytes are zero. -/
def wordAt (bytes : List UInt8) (index : Nat) : UInt32 :=
  ((bytes.drop (4 * index)).take 4).foldr (fun byte word => (word <<< 8) ||| byte.toUInt32) 0

def blockOf (bytes : List UInt8) : Block := Vector.ofFn fun i : Fin 16 => wordAt bytes i.val

def chunkNode (counter : UInt64) (chaining : ChainingValue) (flags : UInt32) (bytes : List UInt8) :
    Node :=
  if bytes.length ≤ blockBytes then
    ⟨chaining, blockOf bytes, counter, bytes.length.toUInt32, flags ||| chunkEnd⟩
  else
    let node : Node := ⟨chaining, blockOf (bytes.take blockBytes), counter, 64, flags⟩
    chunkNode counter (node.compress 0) 0 (bytes.drop blockBytes)
termination_by bytes.length
decreasing_by simp only [blockBytes] at *; simp only [List.length_drop]; omega

/-- The bytes of the left subtree of an input that does not fit one chunk. -/
def leftLength (size : Nat) : Nat := chunkBytes * Nat.pow 2 ((size - 1) / chunkBytes).log2

theorem leftLength_pos (size : Nat) : 0 < leftLength size :=
  Nat.mul_pos (by decide) (Nat.two_pow_pos _)

theorem leftLength_lt {size : Nat} (large : chunkBytes < size) : leftLength size < size := by
  have nonzero : (size - 1) / chunkBytes ≠ 0 := by
    have := Nat.div_pos (a := size - 1) (b := chunkBytes) (by omega) (by decide)
    omega
  have power : Nat.pow 2 ((size - 1) / chunkBytes).log2 ≤ (size - 1) / chunkBytes :=
    Nat.log2_self_le nonzero
  have product := Nat.mul_le_mul_left chunkBytes power
  have bound := Nat.mul_div_le (size - 1) chunkBytes
  unfold leftLength
  omega

def join (left right : ChainingValue) : Block :=
  #v[left[0], left[1], left[2], left[3], left[4], left[5], left[6], left[7],
    right[0], right[1], right[2], right[3], right[4], right[5], right[6], right[7]]

def treeNode (firstChunk : Nat) (bytes : List UInt8) : Node :=
  if bytes.length ≤ chunkBytes then
    chunkNode firstChunk.toUInt64 initial chunkStart bytes
  else
    let cut := leftLength bytes.length
    let left := treeNode firstChunk (bytes.take cut)
    let right := treeNode (firstChunk + cut / chunkBytes) (bytes.drop cut)
    ⟨initial, join (left.compress 0) (right.compress 0), 0, 64, parent⟩
termination_by bytes.length
decreasing_by
  · have : leftLength bytes.length < bytes.length := leftLength_lt (by omega)
    simp only [List.length_take]; omega
  · have := leftLength_pos bytes.length
    simp only [List.length_drop]; omega

/-- The 256-bit hash as eight words. -/
def digest (bytes : List UInt8) : ChainingValue := (treeNode 0 bytes).compress root

end AtomicCss.Hash.Blake3
