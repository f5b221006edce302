import AtomicCss.Json.Printer
import AtomicCss.NameMap

/-!
The names that compiling manifests generated, for the application that uses them.
-/

namespace AtomicCss

/-- The element and the class of one render. -/
structure RenderedClass where
  element : String
  className : String
  deriving DecidableEq, Repr

def RenderedClass.toJson (rendered : RenderedClass) : Json :=
  .object [("element", .text rendered.element), ("class_name", .text rendered.className)]

structure ClassMap where
  /-- The class of each theme. -/
  themes : NameMap String
  /-- The generated name of each animation. -/
  keyframes : NameMap String
  /-- The renders of each style, in order. -/
  styles : NameMap (List RenderedClass)

namespace ClassMap

def empty : ClassMap := ⟨.empty, .empty, .empty⟩

def namesToJson (names : NameMap String) : Json :=
  .object (names.toList.map fun (name, generated) => (name, .text generated))

def toJson (classes : ClassMap) : Json :=
  .object [
    ("themes", namesToJson classes.themes),
    ("keyframes", namesToJson classes.keyframes),
    ("styles", .object (classes.styles.toList.map fun (name, renders) =>
      (name, .array (renders.map RenderedClass.toJson))))]

end ClassMap

end AtomicCss
