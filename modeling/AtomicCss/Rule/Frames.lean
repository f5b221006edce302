import AtomicCss.Rule.Flat

/-!
The walk of a style object on a stack of frames.

A frame is a block with a cursor at its next entry. The blocks under a key and the expansion of a
utility are put on top, and the frame below goes on when they are done, so no call nests however
deep an object is. Entries and blocks are counted in 32-bit words.
-/

namespace AtomicCss

/-- A rule whose numbers are what is left of them in 32 bits. -/
def FlatRule.word (rule : FlatRule) : FlatRule :=
  { rule with origin := (UInt32.ofNat rule.origin).toNat, block := (UInt32.ofNat rule.block).toNat }

namespace Flatten

structure Frame where
  node : StyleNode
  cursor : Nat
  selectors : List String
  atRules : List String
  /-- How many expansions the block lies in. -/
  depth : Nat
  block : UInt32
  bare : Bool
  path : String

namespace Frame

/-- A frame in front of the first entry of a block. -/
def enter (place : Place) (depth : Nat) (node : StyleNode) : Frame :=
  ⟨node, 0, place.selectors, place.atRules, depth, .ofNat place.block, place.bare, place.path⟩

/-- Where an entry of the frame stands. -/
def place (frame : Frame) (key : String) : Place :=
  ⟨frame.selectors, frame.atRules, frame.block.toNat, frame.bare, keyPath frame.path key⟩

end Frame

/-- The frames, the innermost first, with the rules so far and the next numbers. -/
structure Stack where
  frames : List Frame
  rules : List FlatRule
  nextOrigin : UInt32
  nextBlock : UInt32

/-- What one turn of the walk comes to. -/
inductive Turn where
  | goesOn (stack : Stack)
  | ended (result : Except StyleError (List FlatRule))

namespace Stack

def start (mode : FlattenMode) (node : StyleNode) : Stack :=
  ⟨[.enter (rootPlace mode) 0 node], [], 0, 1⟩

def output (stack : Stack) : Output := ⟨stack.rules, stack.nextOrigin.toNat, stack.nextBlock.toNat⟩

def write (stack : Stack) (out : Output) : Stack :=
  { stack with
    rules := out.rules.map FlatRule.word
    nextOrigin := .ofNat out.nextOrigin
    nextBlock := .ofNat out.nextBlock }

/-- Puts blocks on top, the first of them uppermost; all get their numbers before it is walked. -/
def push (stack : Stack) (place : Place) (depth : Nat) (nodes : List StyleNode) : Stack :=
  { stack with
    frames := nodes.mapIdx (fun index node =>
      { Frame.enter place depth node with block := stack.nextBlock + .ofNat index }) ++ stack.frames
    nextBlock := stack.nextBlock + .ofNat nodes.length }

/-- Takes the next entry of the uppermost frame, or the frame away if there is none. -/
def turn (vocabulary : Vocabulary) (mode : FlattenMode) (stack : Stack) : Turn :=
  match stack.frames with
  | [] => .ended (.ok stack.rules)
  | frame :: below => match frame.node[frame.cursor]? with
    | none => .goesOn { stack with frames := below }
    | some (key, value) =>
      let moved := { stack with frames := { frame with cursor := frame.cursor + 1 } :: below }
      match step vocabulary mode (frame.place key) key value stack.output with
      | .error fault => .ended (.error (.invalid (keyPath frame.path key) fault))
      | .ok (.written out) => .goesOn (moved.write out)
      | .ok (.expansion utility place node) =>
        if frame.depth + 1 > Utility.depthLimit then
          .ended (.error (.utilityCycle utility Utility.depthLimit))
        else .goesOn { moved with frames := .enter place (frame.depth + 1) node :: moved.frames }
      | .ok (.blocks place) => .goesOn (moved.push place frame.depth value.blocks)

/-- Takes turns until the walk ends, at most so many. -/
def run (vocabulary : Vocabulary) (mode : FlattenMode) : (turns : Nat) → Stack → Turn
  | 0, stack => .goesOn stack
  | turns + 1, stack => match stack.turn vocabulary mode with
    | .goesOn next => run vocabulary mode turns next
    | .ended result => .ended result

end Stack

end Flatten

end AtomicCss
