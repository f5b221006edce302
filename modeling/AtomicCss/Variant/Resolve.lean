import AtomicCss.Text.Search
import AtomicCss.Variant.Definition

/-!
The style object of a selection: the layers of a definition that apply, merged.

The base comes first, then the groups in the order in which they are declared, then the compound
variants whose predicates hold, then an override. In a group with a value for each breakpoint the
branches come in the order of the breakpoints, `@initial` first.
-/

namespace AtomicCss

/-- The value that a predicate on a group compares with: the one in effect, or the one asked for in
a group that is not declared. -/
def VariantSelection.compared? (selection : VariantSelection) (effective : List (String × String))
    (group : String) : Option String :=
  (Keyed.get? effective group).or ((Keyed.get? selection group).bind VariantValue.initial?)

def CompoundVariant.holds (compound : CompoundVariant) (selection : VariantSelection)
    (effective : List (String × String)) : Bool :=
  compound.predicates.all fun (group, expected) =>
    selection.compared? effective group == some expected

namespace StyleDefinition

/-- The layers merged so far, and the values that are in effect without a breakpoint. -/
structure Merged where
  node : StyleNode
  effective : List (String × String)

def Merged.lay (merged : Merged) (node : StyleNode) : Merged :=
  { merged with node := StyleNode.merge merged.node node }

def Merged.choose (merged : Merged) (group value : String) (node : StyleNode) : Merged :=
  { node := StyleNode.merge merged.node node, effective := merged.effective ++ [(group, value)] }

/-- The style of a value of a group, or of the group's default if it has no such value. -/
def variantNode (definition : StyleDefinition) (group : String) (values : Keyed StyleNode)
    (value : String) : Except StyleError (String × StyleNode) :=
  match values.get? value with
  | some node => .ok (value, node)
  | none =>
    match (definition.default? group).bind fun name =>
      (values.get? name).map fun node => (name, node) with
    | some found => .ok found
    | none => .error (.unknownVariantValue group value)

/-- The rank of a breakpoint key: zero for `@initial`, and from one in the order of breakpoints. -/
def breakpointRank? (breakpoints : List String) (key : String) : Option Nat :=
  if key = VariantValue.initialKey then some 0
  else do
    let name ← Text.stripPrefix? "@" key
    let index ← breakpoints.findIdx? (· = name)
    return index + 1

/-- One branch of a responsive value: its rank, its breakpoint key and the style it asks for. -/
structure Branch where
  rank : Nat
  key : String
  value : String
  node : StyleNode

def branches (definition : StyleDefinition) (breakpoints : List String) (group : String)
    (values : Keyed StyleNode) : List (String × String) → Except StyleError (List Branch)
  | [] => .ok []
  | (key, value) :: rest =>
    match breakpointRank? breakpoints key with
    | none => .error (.invalid (group ++ "." ++ key) .unknownBreakpoint)
    | some rank => do
      let (name, node) ← definition.variantNode group values value
      return ⟨rank, key, name, node⟩ :: (← definition.branches breakpoints group values rest)

def layBranch (group : String) (merged : Merged) (branch : Branch) : Merged :=
  if branch.rank = 0 then merged.choose group branch.value branch.node
  else merged.lay [(branch.key, .node branch.node)]

def layGroup (definition : StyleDefinition) (selection : VariantSelection)
    (breakpoints : List String) (merged : Merged) (group : String) (values : Keyed StyleNode) :
    Except StyleError Merged :=
  match selection.get? group with
  | none => match definition.default? group with
    | none => .ok merged
    | some value => do
      let (name, node) ← definition.variantNode group values value
      return merged.choose group name node
  | some (.single value) => do
    let (name, node) ← definition.variantNode group values value
    return merged.choose group name node
  | some (.responsive asked) => do
    let branches ← definition.branches breakpoints group values asked
    let ranked := branches.mergeSort fun first second => first.rank ≤ second.rank
    return ranked.foldl (layBranch group) merged

/-- The style object of a selection, with an override over all layers. -/
def resolve (definition : StyleDefinition) (selection : VariantSelection)
    (breakpoints : List String) (override : Option StyleNode) : Except StyleError StyleNode := do
  let merged ← definition.groups.foldlM (fun merged (group, values) =>
    definition.layGroup selection breakpoints merged group values) ⟨definition.base, []⟩
  let compounds := definition.compounds.filter (·.holds selection merged.effective)
  let node := compounds.foldl (fun node compound => StyleNode.merge node compound.css) merged.node
  return StyleNode.merge node (override.getD [])

end StyleDefinition

end AtomicCss
