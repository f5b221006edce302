import AtomicCss.Proofs.Variant.Selection

/-!
What a selection picks.

A group is asked for branches: those of a responsive value, or a single value or the default at
`@initial`. They are laid in the order of their breakpoints, and a branch at `@initial` is laid
without a breakpoint. So a style resolves to its base with a list of picks merged in turn, and what
is in effect is read off the same list.
-/

namespace AtomicCss

namespace StyleDefinition

/-- A branch that is laid, with the group that asks for it. -/
structure Pick where
  group : String
  branch : Branch

namespace Pick

/-- Whether the branch is laid without a breakpoint. -/
def isPlain (pick : Pick) : Bool := pick.branch.rank = 0

/-- What is merged: the style of the branch, under its breakpoint key if it has a breakpoint. -/
def style (pick : Pick) : StyleNode :=
  if pick.isPlain then pick.branch.node else [(pick.branch.key, .node pick.branch.node)]

/-- A style object with picks merged into it in turn. -/
def layAll (node : StyleNode) (picks : List Pick) : StyleNode :=
  picks.foldl (fun node pick => StyleNode.merge node pick.style) node

/-- The values that are laid without a breakpoint, in turn, each with its group. -/
def inEffect (picks : List Pick) : List (String × String) :=
  (picks.filter isPlain).map fun pick => (pick.group, pick.branch.value)

end Pick

def Merged.layAll (merged : Merged) (picks : List Pick) : Merged :=
  ⟨Pick.layAll merged.node picks, merged.effective ++ Pick.inEffect picks⟩

/-- The branches that a selection asks of a group. -/
def asked (definition : StyleDefinition) (selection : VariantSelection) (group : String) :
    List (String × String) :=
  match Keyed.get? selection group with
  | none => ((definition.default? group).map fun value => (VariantValue.initialKey, value)).toList
  | some (.single value) => [(VariantValue.initialKey, value)]
  | some (.responsive branches) => branches

def groupPicks (definition : StyleDefinition) (selection : VariantSelection)
    (breakpoints : List String) (group : String) (values : Keyed StyleNode) :
    Except StyleError (List Pick) := do
  let found ← definition.branches breakpoints group values (definition.asked selection group)
  return (found.mergeSort fun first second => first.rank ≤ second.rank).map (⟨group, ·⟩)

def picksOf (definition : StyleDefinition) (selection : VariantSelection)
    (breakpoints : List String) :
    Keyed (Keyed StyleNode) → Except StyleError (List Pick)
  | [] => .ok []
  | (group, values) :: rest => do
    let own ← definition.groupPicks selection breakpoints group values
    let others ← definition.picksOf selection breakpoints rest
    return own ++ others

/-- What a selection picks, in the order in which it is merged over the base. -/
def picks (definition : StyleDefinition) (selection : VariantSelection)
    (breakpoints : List String) :
    Except StyleError (List Pick) :=
  definition.picksOf selection breakpoints definition.groups

/-- The compound variants that hold for what is in effect, merged in turn. -/
def layCompounds (definition : StyleDefinition) (selection : VariantSelection)
    (effective : List (String × String)) (node : StyleNode) : StyleNode :=
  (definition.compounds.filter (·.holds selection effective)).foldl
    (fun node compound => StyleNode.merge node compound.css) node

variable {definition : StyleDefinition} {selection : VariantSelection} {breakpoints : List String}
  {group : String} {values : Keyed StyleNode}

@[simp] theorem layAll_nil (merged : Merged) : merged.layAll [] = merged := by
  simp [Merged.layAll, Pick.layAll, Pick.inEffect]

theorem layAll_append (merged : Merged) (front back : List Pick) :
    merged.layAll (front ++ back) = (merged.layAll front).layAll back := by
  simp [Merged.layAll, Pick.layAll, Pick.inEffect, List.append_assoc]

theorem layBranch_eq (group : String) (merged : Merged) (branch : Branch) :
    layBranch group merged branch = merged.layAll [⟨group, branch⟩] := by
  by_cases plain : branch.rank = 0
  · simp [layBranch, Merged.choose, Merged.layAll, Pick.layAll, Pick.inEffect, Pick.style,
      Pick.isPlain, plain]
  · simp [layBranch, Merged.lay, Merged.layAll, Pick.layAll, Pick.inEffect, Pick.style,
      Pick.isPlain, plain]

theorem foldl_layBranch (group : String) (merged : Merged) (branches : List Branch) :
    branches.foldl (layBranch group) merged = merged.layAll (branches.map (⟨group, ·⟩)) := by
  induction branches generalizing merged with
  | nil => rw [List.foldl_nil, List.map_nil, layAll_nil]
  | cons branch rest ih =>
    rw [List.foldl_cons, ih, layBranch_eq, ← layAll_append, List.map_cons, List.singleton_append]

/-- A value asked for without a breakpoint is one branch. -/
theorem groupPicks_of_plain {value : String}
    (asks : definition.asked selection group = [(VariantValue.initialKey, value)]) :
    definition.groupPicks selection breakpoints group values =
      (definition.variantNode group values value).map fun found =>
        [⟨group, 0, VariantValue.initialKey, found.1, found.2⟩] := by
  rw [groupPicks, asks, branches]
  simp only [breakpointRank?, if_true, branches]
  cases definition.variantNode group values value with
  | error error => rfl
  | ok found => simp [bind, Except.bind, pure, Except.pure, Except.map]

/-- Laying a group is laying what it is asked for. -/
theorem layGroup_eq (merged : Merged) :
    definition.layGroup selection breakpoints merged group values =
      (definition.groupPicks selection breakpoints group values).map merged.layAll := by
  have chosen {value : String}
      (asks : definition.asked selection group = [(VariantValue.initialKey, value)]) :
      (definition.variantNode group values value >>= fun found =>
          pure (merged.choose group found.1 found.2)) =
        (definition.groupPicks selection breakpoints group values).map merged.layAll := by
    rw [groupPicks_of_plain asks]
    cases definition.variantNode group values value with
    | error error => rfl
    | ok found =>
      have single := layBranch_eq group merged ⟨0, VariantValue.initialKey, found.1, found.2⟩
      exact congrArg Except.ok single
  unfold layGroup
  split
  · next unasked =>
    split
    · next none_default =>
      have nothing : definition.asked selection group = [] := by simp [asked, unasked, none_default]
      simp [groupPicks, nothing, branches, bind, Except.bind, pure, Except.pure, Except.map]
    · next value named => exact chosen (by simp [asked, unasked, named])
  · next value single => exact chosen (by simp [asked, single])
  · next own responsive =>
    have asks : definition.asked selection group = own := by simp [asked, responsive]
    rw [groupPicks, asks]
    cases definition.branches breakpoints group values own with
    | error error => rfl
    | ok found => exact congrArg Except.ok (foldl_layBranch group merged _)

theorem foldlM_layGroup (groups : Keyed (Keyed StyleNode)) (merged : Merged) :
    groups.foldlM (fun merged (group, values) =>
        definition.layGroup selection breakpoints merged group values) merged =
      (definition.picksOf selection breakpoints groups).map merged.layAll := by
  induction groups generalizing merged with
  | nil => exact congrArg Except.ok (layAll_nil merged).symm
  | cons entry rest ih =>
    obtain ⟨group, values⟩ := entry
    rw [List.foldlM_cons]
    dsimp only
    rw [layGroup_eq, picksOf]
    cases definition.groupPicks selection breakpoints group values with
    | error error => rfl
    | ok own =>
      change rest.foldlM _ (merged.layAll own) = _
      rw [ih]
      cases definition.picksOf selection breakpoints rest with
      | error error => rfl
      | ok others => exact congrArg Except.ok (layAll_append merged own others).symm

/-- A style resolves to its base with what the selection picks, then the compound variants that
hold, then the override merged over it. -/
theorem resolve_eq (override : Option StyleNode) :
    definition.resolve selection breakpoints override =
      (definition.picks selection breakpoints).map fun picks =>
        StyleNode.merge
          (definition.layCompounds selection (Pick.inEffect picks)
            (Pick.layAll definition.base picks))
          (override.getD []) := by
  rw [resolve, foldlM_layGroup, picks]
  cases definition.picksOf selection breakpoints definition.groups with
  | error error => rfl
  | ok picks => rfl

end StyleDefinition

end AtomicCss
