import AtomicCss.Keyed
import AtomicCss.Numeric.Binary64

/-!
TOML values.
-/

namespace AtomicCss

inductive Toml where
  | text (value : String)
  | whole (value : Int)
  | float (value : Binary64)
  | bool (value : Bool)
  /-- A date, a time or both. -/
  | moment (spelling : String)
  | array (items : List Toml)
  | table (entries : List (String × Toml))
  deriving Inhabited

namespace Toml

/-- The key of the table that stands for a date or time. -/
def momentKey : String := "$__toml_private_datetime"

def entries? : Toml → Option (Keyed Toml)
  | table entries => some entries
  | moment spelling => some [(momentKey, .text spelling)]
  | _ => none

def text? : Toml → Option String
  | text value => some value
  | _ => none

end Toml

end AtomicCss
