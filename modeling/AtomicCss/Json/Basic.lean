import AtomicCss.Keyed
import AtomicCss.Numeric.Binary64

/-!
JSON values.

Objects keep the order of their keys. Numbers without a fraction and an exponent are whole when they
fit 64 bits, signed or unsigned; all others are binary64.
-/

namespace AtomicCss

inductive Json where
  | null
  | bool (value : Bool)
  | whole (value : Int)
  | float (value : Binary64)
  | text (value : String)
  | array (items : List Json)
  | object (fields : List (String × Json))
  deriving Inhabited

namespace Json

def kind : Json → String
  | null => "null"
  | bool _ => "a boolean"
  | whole _ | float _ => "a number"
  | text _ => "a string"
  | array _ => "an array"
  | object _ => "an object"

def number? : Json → Option Binary64
  | whole value => some (Binary64.ofInt value)
  | float value => some value
  | _ => none

def text? : Json → Option String
  | text value => some value
  | _ => none

def items? : Json → Option (List Json)
  | array items => some items
  | _ => none

def fields? : Json → Option (Keyed Json)
  | object fields => some fields
  | _ => none

def field? (json : Json) (key : String) : Option Json := json.fields?.bind (Keyed.get? · key)

end Json

end AtomicCss
