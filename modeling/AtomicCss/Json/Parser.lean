import AtomicCss.Json.Draft
import AtomicCss.Json.Token

/-!
JSON documents from tokens.

The reader is a machine with a stack of the containers that are open. `read?` follows the grammar
alone and gives a draft; `parse?` gives the value of a document.
-/

namespace AtomicCss.Json

/-- A container that is open, with its latest entry first. -/
inductive Frame where
  | items (read : List Draft)
  | fields (read : List (Option String × Draft)) (key : Option String)

/-- What the next token may be. -/
inductive Awaiting where
  | value
  /-- The first item of an array or its end. -/
  | item
  /-- The first key of an object or its end. -/
  | key
  /-- A key after a comma. -/
  | nextKey
  | colon
  /-- A comma or the end of the innermost container. -/
  | separator

structure Machine where
  awaiting : Awaiting
  frames : List Frame
  /-- The draft of the text, once it is complete. -/
  result : Option Draft

namespace Machine

def start : Machine := ⟨.value, [], none⟩

def give (frames : List Frame) (value : Draft) : Machine :=
  match frames with
  | [] => ⟨.separator, [], some value⟩
  | .items read :: outer => ⟨.separator, .items (value :: read) :: outer, none⟩
  | .fields read key :: outer => ⟨.separator, .fields ((key, value) :: read) key :: outer, none⟩

def beginValue (frames : List Frame) : Token → Option Machine
  | .atom value => some (give frames (.atom value))
  | .text content => some (give frames (.atom (content.map .text)))
  | .openArray => some ⟨.item, .items [] :: frames, none⟩
  | .openObject => some ⟨.key, .fields [] none :: frames, none⟩
  | _ => none

def takeKey (frames : List Frame) : Token → Option Machine
  | .text key => match frames with
    | .fields read _ :: outer => some ⟨.colon, .fields read key :: outer, none⟩
    | _ => none
  | _ => none

def close (frames : List Frame) : Token → Option Machine
  | .closeArray => match frames with
    | .items read :: outer => some (give outer (.array read.reverse))
    | _ => none
  | .closeObject => match frames with
    | .fields read _ :: outer => some (give outer (.object read.reverse))
    | _ => none
  | _ => none

def step (machine : Machine) (token : Token) : Option Machine :=
  let frames := machine.frames
  match machine.awaiting with
  | .value => beginValue frames token
  | .item => (beginValue frames token).or (close frames token)
  | .key => (takeKey frames token).or (close frames token)
  | .nextKey => takeKey frames token
  | .colon => match token with
    | .colon => some ⟨.value, frames, none⟩
    | _ => none
  | .separator => match token, frames with
    | .comma, .items _ :: _ => some ⟨.value, frames, none⟩
    | .comma, .fields .. :: _ => some ⟨.nextKey, frames, none⟩
    | _, _ => close frames token

end Machine

def read? (text : String) : Option Draft := do
  let machine ← (← tokens? text.toList).foldlM Machine.step Machine.start
  machine.result

/-- How many containers of a document may lie inside one another. -/
def depthLimit : Nat := 127

def parse? (text : String) : Option Json := (read? text).bind (Draft.tidy? depthLimit)

end AtomicCss.Json
