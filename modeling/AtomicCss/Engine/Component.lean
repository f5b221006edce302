import AtomicCss.Engine.Basic
import AtomicCss.Style.OfJson

/-!
Components: a compiled style on an element.

Rendering a component splits its props. `as`, `css`, `className` and the variant groups of the style
decide the element and its class; every other prop is forwarded as it stands.
-/

namespace AtomicCss

structure Component where
  element : String
  style : CompiledStyle

/-- What a component renders to. -/
structure RenderedElement where
  element : String
  className : String
  props : List (String × Json)

namespace Component

/-- What the props read so far ask for. -/
structure Reading where
  element : String
  selection : VariantSelection
  override : Option StyleNode
  /-- The class that the caller adds. -/
  extraClass : String
  forwarded : List (String × Json)

def Reading.add (definition : StyleDefinition) (reading : Reading) (key : String) (value : Json) :
    Except StyleError Reading :=
  match key with
  | "as" => match value.text? with
    | some element => .ok { reading with element }
    | none => .error (.invalid "as" .elementNotText)
  | "css" => do return { reading with override := some (← StyleNode.ofJson value) }
  | "className" => match value.text? with
    | some className => .ok { reading with extraClass := Text.trim className }
    | none => .error (.invalid "className" .classNotText)
  | key => match definition.group? key with
    | some _ => do
      let chosen ← VariantValue.ofJson key value
      return { reading with selection := Keyed.set reading.selection key chosen }
    | none => .ok { reading with forwarded := reading.forwarded ++ [(key, value)] }

def read (component : Component) (props : List (String × Json)) : Except StyleError Reading :=
  props.foldlM (fun reading (key, value) => reading.add component.style.definition key value)
    ⟨component.element, [], none, "", []⟩

def joinClasses (own extra : String) : String :=
  if own.isEmpty then extra
  else if extra.isEmpty then own
  else own ++ " " ++ extra

end Component

namespace Engine

def styled (engine : Engine) (element : String) (node : StyleNode) :
    Except StyleError Component × Engine :=
  match engine.css node with
  | (.ok style, engine) => (.ok ⟨element, style⟩, engine)
  | (.error error, engine) => (.error error, engine)

def extend (engine : Engine) (component : Component) (node : StyleNode) :
    Except StyleError Component × Engine :=
  match engine.cssComposed [component.style] node with
  | (.ok style, engine) => (.ok { component with style }, engine)
  | (.error error, engine) => (.error error, engine)

def renderWith (settle : Settle Engine) (engine : Engine) (component : Component)
    (props : List (String × Json)) : Except StyleError RenderedElement × Engine :=
  match component.read props with
  | .error error => (.error error, engine)
  | .ok reading =>
    match engine.className settle component.style reading.selection reading.override with
    | (.error error, engine) => (.error error, engine)
    | (.ok className, engine) =>
      (.ok ⟨reading.element, Component.joinClasses className reading.extraClass, reading.forwarded⟩,
        engine)

end Engine

end AtomicCss
