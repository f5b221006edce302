import AtomicCss.Style.Basic
import AtomicCss.Variant.Selection

/-!
Style definitions: a base style with variants.

The keys `variants`, `compoundVariants` and `defaultVariants` of a style object describe its
variants; all other keys are the base style. Definitions compose: later parts win.
-/

namespace AtomicCss

/-- A style that applies when every predicate holds: a group and the value that it must have. -/
structure CompoundVariant where
  predicates : List (String × String)
  css : StyleNode

structure StyleDefinition where
  base : StyleNode
  /-- The groups, and the style of each value of a group. -/
  groups : Keyed (Keyed StyleNode)
  compounds : List CompoundVariant
  /-- The value of a group that a selection leaves out or asks an unknown value of. -/
  defaults : Keyed String

namespace StyleDefinition

def empty : StyleDefinition := ⟨[], [], [], []⟩

def groupValues (path : String) : List (String × StyleValue) → Except StyleError (Keyed StyleNode)
  | [] => .ok []
  | (name, .node style) :: rest => do return (name, style) :: (← groupValues path rest)
  | (name, _) :: _ => .error (.invalid (path ++ "." ++ name) .variantNotBlock)

def groupEntries : List (String × StyleValue) → Except StyleError (Keyed (Keyed StyleNode))
  | [] => .ok []
  | (group, .node values) :: rest => do
    let values ← groupValues ("variants." ++ group) values
    return (group, values) :: (← groupEntries rest)
  | (group, _) :: _ => .error (.invalid ("variants." ++ group) .groupValuesExpected)

def parseGroups : StyleValue → Except StyleError (Keyed (Keyed StyleNode))
  | .node groups => groupEntries groups
  | _ => .error (.invalid "variants" .groupsExpected)

/-- Reads an entry of a compound variant: its style under `css`, and predicates under all other
keys. -/
def compoundEntry (path : String) (compound : CompoundVariant) (key : String) (value : StyleValue) :
    Except StyleError CompoundVariant :=
  if key = "css" then match value with
    | .node css => .ok { compound with css }
    | _ => .error (.invalid (path ++ ".css") .compoundCssNotBlock)
  else match value.cssText? with
    | some text => .ok { compound with predicates := compound.predicates ++ [(key, text)] }
    | none => .error (.invalid (path ++ "." ++ key) .predicateNotScalar)

def compoundItems (index : Nat) : List StyleValue → Except StyleError (List CompoundVariant)
  | [] => .ok []
  | item :: rest =>
    let path := itemPath "compoundVariants" index
    match item with
    | .node entries => do
      let compound ← entries.foldlM
        (fun compound (key, value) => compoundEntry path compound key value) ⟨[], []⟩
      return compound :: (← compoundItems (index + 1) rest)
    | _ => .error (.invalid path .compoundNotBlock)

/-- Reads a list of compound variants; a single one may stand without its list. -/
def parseCompounds : StyleValue → Except StyleError (List CompoundVariant)
  | .list items => compoundItems 0 items
  | .node entries => compoundItems 0 [.node entries]
  | _ => .error (.invalid "compoundVariants" .compoundsExpected)

def defaultEntries : List (String × StyleValue) → Except StyleError (Keyed String)
  | [] => .ok []
  | (group, value) :: rest =>
    match value.cssText? with
    | some text => do return (group, text) :: (← defaultEntries rest)
    | none => .error (.invalid ("defaultVariants." ++ group) .defaultNotScalar)

def parseDefaults : StyleValue → Except StyleError (Keyed String)
  | .node entries => defaultEntries entries
  | _ => .error (.invalid "defaultVariants" .defaultsExpected)

def addEntry (definition : StyleDefinition) (key : String) (value : StyleValue) :
    Except StyleError StyleDefinition :=
  match key with
  | "variants" => do return { definition with groups := ← parseGroups value }
  | "compoundVariants" => do return { definition with compounds := ← parseCompounds value }
  | "defaultVariants" => do return { definition with defaults := ← parseDefaults value }
  | key => .ok { definition with base := definition.base.set key value }

def parse (node : StyleNode) : Except StyleError StyleDefinition :=
  node.foldlM (fun definition (key, value) => definition.addEntry key value) empty

def mergeValues (values incoming : Keyed StyleNode) : Keyed StyleNode :=
  incoming.foldl (fun values (name, node) =>
    match values.get? name with
    | some current => values.set name (StyleNode.merge current node)
    | none => values.set name node) values

def mergeGroups (groups incoming : Keyed (Keyed StyleNode)) : Keyed (Keyed StyleNode) :=
  incoming.foldl (fun groups (group, values) =>
    match groups.get? group with
    | some current => groups.set group (mergeValues current values)
    | none => groups.set group values) groups

/-- Lays a definition over another: bases, groups and their values merge, compound variants follow
those before, and defaults override. -/
def mergeWith (composed part : StyleDefinition) : StyleDefinition :=
  { base := StyleNode.merge composed.base part.base
    groups := mergeGroups composed.groups part.groups
    compounds := composed.compounds ++ part.compounds
    defaults := part.defaults.foldl (fun defaults (group, value) => defaults.set group value)
      composed.defaults }

def compose (parts : List StyleDefinition) : StyleDefinition := parts.foldl mergeWith empty

def group? (definition : StyleDefinition) (name : String) : Option (Keyed StyleNode) :=
  definition.groups.get? name

def default? (definition : StyleDefinition) (group : String) : Option String :=
  definition.defaults.get? group

def isBadDefault (definition : StyleDefinition) (group value : String) : Bool :=
  match definition.group? group with
  | some values => !values.contains value
  | none => false

def validateDefaults (definition : StyleDefinition) : Except StyleError Unit :=
  match definition.defaults.find? fun (group, value) => definition.isBadDefault group value with
  | some (group, value) => .error (.unknownVariantValue group value)
  | none => .ok ()

/-- Every style object that the definition may contribute, with its path. -/
def layers (definition : StyleDefinition) : List (String × StyleNode) :=
  ("", definition.base) ::
    (definition.groups.flatMap fun (group, values) =>
      values.map fun (name, node) => ("variants." ++ group ++ "." ++ name, node)) ++
    definition.compounds.mapIdx fun index compound =>
      (itemPath "compoundVariants" index ++ ".css", compound.css)

/-- The entries of a selection that name declared groups. -/
def normalize (definition : StyleDefinition) (selection : VariantSelection) : VariantSelection :=
  selection.filter fun (group, _) => (definition.group? group).isSome

end StyleDefinition

end AtomicCss
