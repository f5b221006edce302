import AtomicCss.Property
import AtomicCss.Style.Basic
import AtomicCss.Text.Alphanumeric
import AtomicCss.Text.Blank
import AtomicCss.Text.Search
import AtomicCss.Theme.Basic

/-!
Token references in declaration values.

In a value `$$name` stands for a custom property of that name, `$scale$token` for a token, and
`$token` for a token of the scale that the property implies. A value that is a bare token name of
that scale stands for the token too. A reference after a minus is negated; one that names no token
stays as it is written. A value is first cut into pieces, and the pieces are then written from left
to right.
-/

namespace AtomicCss

/-- What references are resolved against. -/
structure TokenScope where
  theme : Theme
  /-- The scale that each property implies. -/
  bindings : NameMap String
  namePrefix : String

namespace Reference

/-- A part of a value. -/
inductive Piece where
  | char (c : Char)
  /-- `$$name` -/
  | localToken (name : List Char)
  /-- `$name` -/
  | implied (name : List Char)
  /-- `$scale$name` -/
  | scaled (scale name : List Char)
  deriving DecidableEq, Repr

def Piece.source : Piece → List Char
  | .char c => [c]
  | .localToken name => '$' :: '$' :: name
  | .implied name => '$' :: name
  | .scaled scale name => '$' :: scale ++ '$' :: name

def startsWithDigit : List Char → Bool
  | c :: _ => c.isDigit
  | [] => false

/-- Letters, digits, dashes and underscores belong to names, and so does a dot before a digit. -/
def scanName : List Char → List Char × List Char
  | [] => ([], [])
  | c :: rest =>
    if Text.isAlphanumeric c || c == '-' || c == '_' || (c == '.' && startsWithDigit rest) then
      let (name, after) := scanName rest
      (c :: name, after)
    else ([], c :: rest)

theorem length_scanName (cs : List Char) : (scanName cs).2.length ≤ cs.length := by
  induction cs with
  | nil => simp [scanName]
  | cons c rest ih =>
    simp only [scanName]
    split
    · exact Nat.le_succ_of_le ih
    · exact Nat.le_refl _

theorem length_le_of_scanName {cs name after : List Char} (scanned : scanName cs = (name, after)) :
    after.length ≤ cs.length := by
  have := length_scanName cs
  rwa [scanned] at this

def pieces : List Char → List Piece
  | [] => []
  | '$' :: '$' :: rest =>
    match _scanned : scanName rest with
    | ([], _) => .char '$' :: .char '$' :: pieces rest
    | (name, after) => .localToken name :: pieces after
  | '$' :: rest =>
    match _scanned : scanName rest with
    | ([], _) => .char '$' :: pieces rest
    | (name, '$' :: after) =>
      match _again : scanName after with
      | ([], _) => .implied name :: pieces ('$' :: after)
      | (second, after) => .scaled name second :: pieces after
    | (name, after) => .implied name :: pieces after
  | c :: rest => .char c :: pieces rest
termination_by cs => cs.length
decreasing_by
  · simp only [List.length_cons]; omega
  · have := length_le_of_scanName _scanned
    simp only [List.length_cons]; omega
  · simp only [List.length_cons]; omega
  · have := length_le_of_scanName _scanned
    simp only [List.length_cons] at *; omega
  · have := length_le_of_scanName _scanned
    have := length_le_of_scanName _again
    simp only [List.length_cons] at *; omega
  · have := length_le_of_scanName _scanned
    simp only [List.length_cons]; omega
  · simp only [List.length_cons]; omega

theorem pieces_char {c : Char} (shown : c ≠ '$') (rest : List Char) :
    pieces (c :: rest) = .char c :: pieces rest := by
  rw [pieces]
  · exact fun _ same _ => shown same
  · exact shown

/-- Whether a reference at this point is negated: the text before it, last character first, ends in
a minus that starts the value or follows a blank, a parenthesis or a comma. -/
def isNegated : (written : List Char) → Bool
  | ['-'] => true
  | '-' :: c :: _ => Text.isBlank c || c == '(' || c == ','
  | _ => false

def write (written : List Char) (reference : String) : List Char :=
  if isNegated written then
    ("calc(" ++ reference ++ " * -1)").toList.reverseAux (written.drop 1)
  else reference.toList.reverseAux written

end Reference

namespace TokenScope

open Reference

def impliedScale? (scope : TokenScope) (property : String) : Option String :=
  scope.bindings.get? property

/-- The token of the implied scale that the whole value names. -/
def bareToken? (scope : TokenScope) (property value : String) : Option String :=
  if value.isEmpty || Text.hasPrefix "$" value || Text.hasBlank value then none
  else do
    let scale ← scope.impliedScale? property
    let token ← scope.theme.get? scale value
    return token.reference

def target? (scope : TokenScope) (property : String) : Piece → Option String
  | .char _ => none
  | .localToken name =>
    some ("var(" ++ Name.customProperty scope.namePrefix (String.ofList name) ++ ")")
  | .implied name => do
    let scale ← scope.impliedScale? property
    let token ← scope.theme.get? scale (String.ofList name)
    return token.reference
  | .scaled scale name => do
    let token ← scope.theme.get? (String.ofList scale) (String.ofList name)
    return token.reference

def append (scope : TokenScope) (property : String) (written : List Char) (piece : Piece) :
    List Char :=
  match scope.target? property piece with
  | some reference => write written reference
  | none => piece.source.reverseAux written

/-- The text of a value for a property, with its references resolved. -/
def resolve (scope : TokenScope) (property value : String) : String :=
  match scope.bareToken? property (Text.trim value) with
  | some reference => reference
  | none => String.ofList ((pieces value.toList).foldl (scope.append property) []).reverse

/-- The text of a scalar for a property. A number may name a token of the implied scale; otherwise
it takes the unit of the property unless it is zero. -/
def resolveScalar? (scope : TokenScope) (property : String) : StyleValue → Option String
  | .text content => some (scope.resolve property content)
  | .number value =>
    let text := Numeric.stylesheetText value
    match scope.bareToken? property text with
    | some reference => some reference
    | none => if !value.isZero && Property.takesLength property then some (text ++ "px")
      else some text
  | _ => none

end TokenScope

end AtomicCss
