import AtomicCss.Toml.Document
import AtomicCss.Toml.Scalar

/-!
TOML documents: keys, values, headers and lines.
-/

namespace AtomicCss.TomlText

/-- Arrays and inline tables nest, and dotted keys reach, less deep than this. -/
def depthLimit : Nat := 80

/-- Drops a comment, up to the line break; none if it holds a control character. -/
def skipComment? : List Char → Option (List Char)
  | '#' :: cs =>
    let rest := cs.dropWhile isPrintable
    if rest.isEmpty ∨ (newline? rest).isSome then some rest else none
  | cs => some cs

/-- Drops the end of a line: spaces, a comment and the line break or the end of the text. -/
def endLine? (cs : List Char) : Option (List Char) :=
  match skipComment? (skipSpace cs) with
  | some [] => some []
  | some rest => newline? rest
  | none => none

def skipLines? : (fuel : Nat) → List Char → Option (List Char)
  | 0, _ => none
  | fuel + 1, cs =>
    match skipSpace cs with
    | '#' :: rest => match skipComment? ('#' :: rest) with
      | some rest => match newline? rest with
        | some rest => skipLines? fuel rest
        | none => none
      | none => none
    | rest => match newline? rest with
      | some rest => skipLines? fuel rest
      | none => some rest

def isBareKeyChar (c : Char) : Bool := c.isAlphanum || c == '-' || c == '_'

def keyPart? : Reader String := fun cs =>
  match cs with
  | '"' :: _ | '\'' :: _ => quoted? cs
  | cs => match cs.span isBareKeyChar with
    | ([], _) => none
    | (part, rest) => some (String.ofList part, rest)

def key? : (fuel : Nat) → Reader (List String)
  | 0, _ => none
  | fuel + 1, cs => do
    let (part, rest) ← keyPart? (skipSpace cs)
    match skipSpace rest with
    | '.' :: rest =>
      let (parts, rest) ← key? fuel rest
      return (part :: parts, rest)
    | rest => return ([part], rest)

/-- Reads a key that is not too deep, as the path of its table and its own name. -/
def splitKey? : Reader (List String × String) := fun cs => do
  let (parts, rest) ← key? (cs.length + 1) cs
  let name ← parts.getLast?
  if parts.length < depthLimit then some ((parts.dropLast, name), rest) else none

mutual

def value? : (fuel : Nat) → (depth : Nat) → Reader Toml
  | 0, _, _ => none
  | fuel + 1, depth, cs =>
    match cs with
    | '"' :: _ | '\'' :: _ => (text? cs).map fun (text, rest) => (.text text, rest)
    | '[' :: rest => if depth + 1 < depthLimit then items? fuel (depth + 1) [] rest else none
    | '\x7b' :: rest =>
      if depth + 1 < depthLimit then match skipSpace rest with
        | '\x7d' :: rest => some (.table [], rest)
        | rest => pairs? fuel (depth + 1) [] rest
      else none
    | cs => scalarWord? cs

/-- Reads the items of an array up to its end; those read so far come latest first. -/
def items? : (fuel : Nat) → (depth : Nat) → (read : List Toml) → Reader Toml
  | 0, _, _, _ => none
  | fuel + 1, depth, read, cs => do
    match ← skipLines? (cs.length + 1) cs with
    | ']' :: rest => return (.array read.reverse, rest)
    | cs =>
      let (item, rest) ← value? fuel depth cs
      match ← skipLines? (rest.length + 1) rest with
      | ',' :: rest => items? fuel depth (item :: read) rest
      | ']' :: rest => return (.array (item :: read).reverse, rest)
      | _ => none

def pairs? : (fuel : Nat) → (depth : Nat) → (read : Keyed Toml.Item) → Reader Toml
  | 0, _, _, _ => none
  | fuel + 1, depth, read, cs => do
    let ((path, name), rest) ← splitKey? cs
    let (value, rest) ← value? fuel depth (skipSpace (← Toml.Moment.expect? '=' rest))
    let read ← Toml.Item.define path name value read
    match skipSpace rest with
    | ',' :: rest => pairs? fuel depth read rest
    | '\x7d' :: rest => return (.table (Toml.Item.entriesToToml read), rest)
    | _ => none

end

/-- A document under construction: its entries and the path of the table that keys go to. -/
structure Document where
  entries : Keyed Toml.Item
  table : List String

def header? (document : Document) : List Char → Option (Document × List Char)
  | '[' :: cs => do
    let ((path, name), rest) ← splitKey? cs
    let rest ← Toml.Moment.expect? ']' (← Toml.Moment.expect? ']' rest)
    let entries ← Toml.Item.openNext path name document.entries
    return (⟨entries, path ++ [name]⟩, rest)
  | cs => do
    let ((path, name), rest) ← splitKey? cs
    let rest ← Toml.Moment.expect? ']' rest
    let entries ← Toml.Item.openTable path name document.entries
    return (⟨entries, path ++ [name]⟩, rest)

def pair? (document : Document) (cs : List Char) : Option (Document × List Char) := do
  let ((path, name), rest) ← splitKey? cs
  let rest := skipSpace (← Toml.Moment.expect? '=' rest)
  let (value, rest) ← value? (rest.length + 1) 0 rest
  let entries ← Toml.Item.defineIn document.table path name value document.entries
  return ({ document with entries }, rest)

def lines? : (fuel : Nat) → Document → List Char → Option Document
  | 0, _, _ => none
  | fuel + 1, document, cs =>
    match skipSpace cs with
    | [] => some document
    | '[' :: rest => do
      let (document, rest) ← header? document rest
      lines? fuel document (← endLine? rest)
    | rest =>
      if rest.head? = some '#' ∨ (newline? rest).isSome then do
        lines? fuel document (← endLine? rest)
      else do
        let (document, rest) ← pair? document rest
        lines? fuel document (← endLine? rest)

/-- A byte order mark may stand before a document. -/
def byteOrderMark : Char := Char.ofNat 0xFEFF

def document? (text : String) : Option (Keyed Toml) :=
  let cs := match text.toList with
    | c :: cs => if c = byteOrderMark then cs else c :: cs
    | [] => []
  (lines? (cs.length + 1) ⟨[], []⟩ cs).map fun document => Toml.Item.entriesToToml document.entries

end AtomicCss.TomlText
