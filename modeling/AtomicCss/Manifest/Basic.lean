import AtomicCss.Json.Parser
import AtomicCss.NameMap
import AtomicCss.Style.Error

/-!
Manifests: documents that list the styles of an application.

A manifest has four sections, each of which may be missing: themes, global styles, keyframes and
styles. A document, and an entry of its styles, is an object with named fields, or an array of the
fields in order in which fields at the end may be missing.
-/

namespace AtomicCss

structure Manifest where
  themes : Keyed Json
  global : List Json
  keyframes : Keyed Json
  styles : Keyed Json

/-- A style of a manifest, and the props that it is rendered with. -/
structure StyleEntry where
  style : Json
  element : Option String
  renders : List (Keyed Json)

inductive ManifestError where
  | unreadable (path : String)
  | malformed (path : String)
  /-- A style of a part of the document is refused. -/
  | style (path part : String) (error : StyleError)
  deriving DecidableEq, Repr

def ManifestError.message : ManifestError → String
  | unreadable path => "failed to read manifest " ++ path
  | malformed path => "failed to parse manifest " ++ path
  | style path part error => path ++ ": " ++ part ++ ": " ++ error.message

/-- The fields of a document: objects name them, and arrays list them in order. An array with more
entries than there are fields is malformed. -/
def Json.record? (order : List String) : Json → Option (Keyed Json)
  | .object fields => some fields
  | .array items => if items.length ≤ order.length then some (order.zip items) else none
  | _ => none

namespace Manifest

def fields : List String := ["themes", "global", "keyframes", "styles"]

def namedSection? (record : Keyed Json) (field : String) : Option (Keyed Json) :=
  match record.get? field with
  | none => some []
  | some json => json.fields?

def listSection? (record : Keyed Json) (field : String) : Option (List Json) :=
  match record.get? field with
  | none => some []
  | some json => json.items?

def ofJson? (json : Json) : Option Manifest := do
  let record ← json.record? fields
  let themes ← namedSection? record "themes"
  let global ← listSection? record "global"
  let keyframes ← namedSection? record "keyframes"
  let styles ← namedSection? record "styles"
  return ⟨themes, global, keyframes, styles⟩

/-- How many containers may lie inside one another in a section. -/
def sectionDepth : Nat := Json.depthLimit - 1

/-- The sections of a draft; other fields may hold anything. A section may come once. -/
def tidySections? : List (Option String × Json.Draft) → Option (List (String × Json))
  | [] => some []
  | (field, draft) :: rest => do
    let field ← field
    let others ← tidySections? rest
    if !fields.contains field then return others
    else if rest.any fun entry => entry.1 = some field then none
    else return (field, ← draft.tidy? sectionDepth) :: others

def ofText? (text : String) : Option Manifest := do
  match ← Json.read? text with
  | .object entries => ofJson? (.object (← tidySections? entries))
  | other => ofJson? (← other.tidy? Json.depthLimit)

end Manifest

namespace StyleEntry

def fields : List String := ["style", "element", "renders"]

def elementOf? : Json → Option (Option String)
  | .null => some none
  | .text element => some (some element)
  | _ => none

def ofJson? (json : Json) : Option StyleEntry := do
  let record ← json.record? fields
  let style ← record.get? "style"
  let element ← elementOf? ((record.get? "element").getD .null)
  let renders ← ((record.get? "renders").getD (.array [])).items?
  return ⟨style, element, ← renders.mapM Json.fields?⟩

end StyleEntry

end AtomicCss
