import AtomicCss.Proofs.Style.Merge
import AtomicCss.Proofs.Variant.Layers

/-!
Where a branch of a responsive value stands in what a style resolves to.

A branch is merged under its breakpoint key, onto what stands there. Later layers may only be laid
over it under the same key: they merge with it if they are objects too, and take its place
otherwise. So a resolved style object holds under the key the style of the branch, up to what later
layers hold there.
-/

namespace AtomicCss

namespace StyleDefinition

variable {definition : StyleDefinition} {breakpoints : List String} {selection : VariantSelection}
  {override : Option StyleNode} {group value key : String} {values : Keyed StyleNode}
  {style : StyleNode}

/-- What may be laid over a branch: what a layer or an override holds under its key, and the style
of another branch. -/
inductive Lays (definition : StyleDefinition) (override : Option StyleNode) (key : String) :
    StyleValue → Prop where
  | layer {node : StyleNode} {held : StyleValue} : definition.IsLayer node → (key, held) ∈ node →
      Lays definition override key held
  | branch {node : StyleNode} : definition.IsLayer node → Lays definition override key (.node node)
  | override {node : StyleNode} {held : StyleValue} : override = some node → (key, held) ∈ node →
      Lays definition override key held

/-- The style of a branch, laid over what stood under its key and overlaid by what came later. -/
inductive Overlaid (definition : StyleDefinition) (override : Option StyleNode) (key : String)
    (style : StyleNode) : StyleValue → Prop where
  | branch (below) : Overlaid definition override key style (.lay below (.node style))
  | over {held later} : Overlaid definition override key style held →
      Lays definition override key later →
        Overlaid definition override key style (.lay (some held) later)

/-- A style object holds a branch under its key. -/
def Holds (definition : StyleDefinition) (override : Option StyleNode) (key : String)
    (style node : StyleNode) : Prop :=
  ∃ held, (key, held) ∈ node ∧ definition.Overlaid override key style held

theorem Holds.mergeEntry {node : StyleNode} (holds : definition.Holds override key style node)
    {other : String} {value : StyleValue}
    (lays : other = key → definition.Lays override key value) :
    definition.Holds override key style (node.mergeEntry other value) := by
  obtain ⟨held, member, overlaid⟩ := holds
  rcases StyleNode.mem_mergeEntry_or member other value with kept | ⟨same, laid⟩
  · exact ⟨held, kept, overlaid⟩
  · exact ⟨_, laid, overlaid.over (lays same)⟩

/-- A branch stays in what layers are merged into. -/
theorem Holds.merge {node incoming : StyleNode} (holds : definition.Holds override key style node)
    (lays : ∀ value, (key, value) ∈ incoming → definition.Lays override key value) :
    definition.Holds override key style (StyleNode.merge node incoming) := by
  induction incoming generalizing node with
  | nil => exact holds
  | cons entry rest ih =>
    obtain ⟨other, value⟩ := entry
    refine ih (holds.mergeEntry ?_) fun value member => lays value (List.mem_cons_of_mem _ member)
    rintro rfl
    exact lays value List.mem_cons_self

theorem closed_holds (definition : StyleDefinition) (override : Option StyleNode) (key : String)
    (style : StyleNode) (breakpoints : List String) :
    definition.Closed breakpoints (definition.Holds override key style) where
  layer holds isLayer := holds.merge fun _ inside => .layer isLayer inside
  branch holds isLayer _ := by
    apply holds.merge
    intro value inside
    obtain ⟨-, rfl⟩ := Prod.ext_iff.mp (List.mem_singleton.mp inside)
    exact .branch isLayer

/-- A group that is asked at a breakpoint merges the style of the value there under the key. -/
theorem holds_of_layGroup {merged after : Merged} {asked : List (String × String)} {rank : Nat}
    (override : Option StyleNode) (declared : (group, values) ∈ definition.groups)
    (asks : Keyed.get? selection group = some (.responsive asked)) (member : (key, value) ∈ asked)
    (ranked : breakpointRank? breakpoints key = some (rank + 1))
    (laid : definition.layGroup selection breakpoints merged group values = .ok after) :
    ∃ chosen style, definition.variantNode group values value = .ok (chosen, style) ∧
      definition.Holds override key style after.node := by
  rw [layGroup, asks] at laid
  obtain ⟨found, made, last⟩ := bind_eq_ok.mp laid
  obtain rfl := Except.ok.inj last
  obtain ⟨branch, inside, rfl, its_rank, chosen⟩ :=
    exists_right_of_forall₂ (branches_eq_ok.mp made) member
  have positive : branch.rank ≠ 0 := by
    rw [ranked] at its_rank
    simp [← Option.some.inj its_rank]
  refine ⟨branch.value, branch.node, chosen, ?_⟩
  obtain ⟨front, back, sorted⟩ := List.append_of_mem (List.mem_mergeSort.mpr inside)
  rw [sorted, List.foldl_append, List.foldl_cons]
  apply (closed_holds definition override branch.key branch.node breakpoints).layBranches
  · intro other behind
    have there := sorted ▸ List.mem_append_right front (List.mem_cons_of_mem branch behind)
    exact ranked_of_branches declared made (List.mem_mergeSort.mp there)
  · rw [layBranch, if_neg positive]
    exact ⟨_, StyleNode.mem_mergeEntry_self _ branch.key (.node branch.node), .branch _⟩

/-- A style holds each branch that it is asked for under the key of the branch. -/
theorem holds_of_resolve {asked : List (String × String)} {rank : Nat} {node : StyleNode}
    (declared : (group, values) ∈ definition.groups)
    (asks : Keyed.get? selection group = some (.responsive asked)) (member : (key, value) ∈ asked)
    (ranked : breakpointRank? breakpoints key = some (rank + 1))
    (resolved : definition.resolve selection breakpoints override = .ok node) :
    ∃ chosen style, definition.variantNode group values value = .ok (chosen, style) ∧
      definition.Holds override key style node := by
  obtain ⟨merged, laid, last⟩ := bind_eq_ok.mp resolved
  obtain rfl := Except.ok.inj last
  obtain ⟨front, back, groups⟩ := List.append_of_mem declared
  rw [groups, List.foldlM_append] at laid
  obtain ⟨reached, -, laid⟩ := bind_eq_ok.mp laid
  obtain ⟨after, own, laid⟩ := bind_eq_ok.mp laid
  obtain ⟨chosen, style, found, here⟩ := holds_of_layGroup override declared asks member ranked own
  have closed := closed_holds definition override key style breakpoints
  have behind : back ⊆ definition.groups := by
    rw [groups]
    exact List.subset_append_of_subset_right _ (List.subset_cons_self _ _)
  have lower := closed.layGroups behind here laid
  have compounds (compound : CompoundVariant)
      (inside : compound ∈ definition.compounds.filter (·.holds selection merged.effective)) :=
    definition.isLayer_parts.2.2 compound (List.mem_of_mem_filter inside)
  refine ⟨chosen, style, found, (closed.layCompounds compounds lower).merge ?_⟩
  intro value inside
  cases override with
  | none => cases inside
  | some node => exact .override rfl inside

end StyleDefinition

end AtomicCss
