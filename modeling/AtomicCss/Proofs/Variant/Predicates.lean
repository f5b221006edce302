import AtomicCss.Proofs.Variant.Picks

/-!
What the predicates of compound variants test.

A predicate compares with the first value that its group lays without a breakpoint, and with what
the selection asks if the group lays none. So a predicate on a group that is not declared tests a
selection that names the group, and in its normal form fails; and a predicate on a declared group
tests the value in effect as long as the group does not lay another one over it.
-/

namespace AtomicCss.StyleDefinition

/-- Whether all predicates of a compound variant are on declared groups. -/
def declares (definition : StyleDefinition) (compound : CompoundVariant) : Bool :=
  compound.predicates.all fun (group, _) => (definition.group? group).isSome

/-- The definition with those compound variants only that test declared groups. -/
def declaredPart (definition : StyleDefinition) : StyleDefinition :=
  { definition with compounds := definition.compounds.filter definition.declares }

/-- The values that a group lays without a breakpoint, in turn. -/
def Pick.valuesOf (group : String) (picks : List Pick) : List String :=
  ((inEffect picks).filter fun entry => entry.1 = group).map (·.2)

variable {definition : StyleDefinition} {selection : VariantSelection} {breakpoints : List String}
  {override : Option StyleNode} {group : String}

theorem isSome_group?_of_mem {values : Keyed StyleNode}
    (declared : (group, values) ∈ definition.groups) :
    (definition.group? group).isSome = true :=
  Keyed.contains_iff.mpr (List.mem_map.mpr ⟨_, declared, rfl⟩)

/-- A pick is made of a branch that its group is asked for. -/
theorem exists_of_mem_groupPicks {values : Keyed StyleNode} {picks : List Pick}
    (made : definition.groupPicks selection breakpoints group values = .ok picks) {pick : Pick}
    (member : pick ∈ picks) :
    pick.group = group ∧ ∃ entry ∈ definition.asked selection group,
      definition.Branches breakpoints group values entry pick.branch := by
  obtain ⟨found, branched, last⟩ := bind_eq_ok.mp made
  obtain rfl := Except.ok.inj last
  obtain ⟨branch, inside, rfl⟩ := List.mem_map.mp member
  exact ⟨rfl, exists_left_of_forall₂ (branches_eq_ok.mp branched) (List.mem_mergeSort.mp inside)⟩

theorem exists_of_mem_picksOf {groups : Keyed (Keyed StyleNode)} {picks : List Pick}
    (made : definition.picksOf selection breakpoints groups = .ok picks) {pick : Pick}
    (member : pick ∈ picks) :
    ∃ values, (pick.group, values) ∈ groups ∧ ∃ entry ∈ definition.asked selection pick.group,
      definition.Branches breakpoints pick.group values entry pick.branch := by
  induction groups generalizing picks with
  | nil =>
    obtain rfl := Except.ok.inj made
    cases member
  | cons head rest ih =>
    obtain ⟨name, values⟩ := head
    obtain ⟨own, picked, later⟩ := bind_eq_ok.mp made
    obtain ⟨others, picked_rest, last⟩ := bind_eq_ok.mp later
    obtain rfl := Except.ok.inj last
    rcases List.mem_append.mp member with here | there
    · obtain ⟨rfl, asks⟩ := exists_of_mem_groupPicks picked here
      exact ⟨values, List.mem_cons_self, asks⟩
    · obtain ⟨found, inside, asks⟩ := ih picked_rest there
      exact ⟨found, List.mem_cons_of_mem _ inside, asks⟩

section Normalize

theorem get?_normalize (group : String) :
    Keyed.get? (definition.normalize selection) group =
      if (definition.group? group).isSome then Keyed.get? selection group else none :=
  Keyed.get?_filter (fun name => (definition.group? name).isSome) selection group

theorem picksOf_normalize {groups : Keyed (Keyed StyleNode)} (within : groups ⊆ definition.groups) :
    definition.picksOf (definition.normalize selection) breakpoints groups =
      definition.picksOf selection breakpoints groups := by
  induction groups with
  | nil => rfl
  | cons entry rest ih =>
    obtain ⟨group, values⟩ := entry
    obtain ⟨declared, within⟩ := List.cons_subset.mp within
    have same : definition.asked (definition.normalize selection) group =
        definition.asked selection group := by
      rw [asked, get?_normalize, if_pos (isSome_group?_of_mem declared), ← asked]
    rw [picksOf, picksOf, ih within, groupPicks, same, ← groupPicks]

theorem picks_normalize :
    definition.picks (definition.normalize selection) breakpoints =
      definition.picks selection breakpoints :=
  picksOf_normalize (List.Subset.refl _)

theorem declared_of_mem_inEffect {picks : List Pick}
    (picked : definition.picks selection breakpoints = .ok picks) {entry : String × String}
    (member : entry ∈ Pick.inEffect picks) : (definition.group? entry.1).isSome = true := by
  obtain ⟨pick, plain, rfl⟩ := List.mem_map.mp member
  obtain ⟨values, declared, -⟩ := exists_of_mem_picksOf picked (List.mem_of_mem_filter plain)
  exact isSome_group?_of_mem declared

/-- With the normal form of a selection exactly those compound variants hold that hold with the
selection and test declared groups only. -/
theorem holds_normalize {effective : List (String × String)}
    (declared : ∀ entry ∈ effective, (definition.group? entry.1).isSome = true)
    (compound : CompoundVariant) :
    compound.holds (definition.normalize selection) effective =
      (definition.declares compound && compound.holds selection effective) := by
  have known {group : String} (known : (definition.group? group).isSome = true) :
      (definition.normalize selection).compared? effective group =
        selection.compared? effective group := by
    rw [VariantSelection.compared?, get?_normalize, if_pos known, ← VariantSelection.compared?]
  have unknown {group : String} (unknown : ¬ (definition.group? group).isSome = true) :
      (definition.normalize selection).compared? effective group = none := by
    have absent : Keyed.Lacks effective group := by
      rintro entry member rfl
      exact unknown (declared entry member)
    rw [VariantSelection.compared?, get?_normalize, if_neg unknown, absent.get?]
    rfl
  rw [Bool.eq_iff_iff, Bool.and_eq_true]
  simp only [CompoundVariant.holds, declares, List.all_eq_true, beq_iff_eq]
  constructor
  · intro holds
    have all_known : ∀ predicate ∈ compound.predicates,
        (definition.group? predicate.1).isSome = true := by
      intro predicate member
      by_contra missing
      cases (unknown missing).symm.trans (holds predicate member)
    refine ⟨all_known, ?_⟩
    intro predicate member
    exact (known (all_known predicate member)).symm.trans (holds predicate member)
  · rintro ⟨all_known, holds⟩ predicate member
    exact (known (all_known predicate member)).trans (holds predicate member)

theorem branches_declaredPart (values : Keyed StyleNode) (asked : List (String × String)) :
    definition.declaredPart.branches breakpoints group values asked =
      definition.branches breakpoints group values asked := by
  induction asked with
  | nil => rfl
  | cons entry rest ih =>
    obtain ⟨key, value⟩ := entry
    rw [branches, branches, ih]
    rfl

theorem picksOf_declaredPart (groups : Keyed (Keyed StyleNode)) :
    definition.declaredPart.picksOf selection breakpoints groups =
      definition.picksOf selection breakpoints groups := by
  induction groups with
  | nil => rfl
  | cons entry rest ih =>
    obtain ⟨group, values⟩ := entry
    rw [picksOf, picksOf, ih, groupPicks, branches_declaredPart]
    rfl

section Compounds

variable {picks : List Pick} (picked : definition.picks selection breakpoints = .ok picks)
include picked

theorem layCompounds_normalize (node : StyleNode) :
    definition.layCompounds (definition.normalize selection) (Pick.inEffect picks) node =
      definition.declaredPart.layCompounds selection (Pick.inEffect picks) node := by
  have held :
      definition.compounds.filter (·.holds (definition.normalize selection) (Pick.inEffect picks)) =
      definition.declaredPart.compounds.filter (·.holds selection (Pick.inEffect picks)) := by
    rw [declaredPart, List.filter_filter]
    apply List.filter_congr
    intro compound _
    rw [holds_normalize (fun _ => declared_of_mem_inEffect picked), Bool.and_comm]
  rw [layCompounds, held, ← layCompounds]

theorem layCompounds_of_declared
    (declared : ∀ compound ∈ definition.compounds,
      compound.holds selection (Pick.inEffect picks) = true → definition.declares compound = true)
    (node : StyleNode) :
    definition.layCompounds (definition.normalize selection) (Pick.inEffect picks) node =
      definition.layCompounds selection (Pick.inEffect picks) node := by
  have held :
      definition.compounds.filter (·.holds (definition.normalize selection) (Pick.inEffect picks)) =
      definition.compounds.filter (·.holds selection (Pick.inEffect picks)) := by
    apply List.filter_congr
    intro compound member
    rw [holds_normalize fun _ => declared_of_mem_inEffect picked]
    cases holds : compound.holds selection (Pick.inEffect picks) with
    | false => exact Bool.and_false _
    | true => rw [declared compound member holds, Bool.and_self]
  rw [layCompounds, held, ← layCompounds]

end Compounds

/-- The normal form of a selection resolves as the selection does with the compound variants that
test declared groups only. So both are refused alike, and resolve alike unless a compound variant
holds that tests a group which is not declared. -/
theorem resolve_normalize (definition : StyleDefinition) (selection : VariantSelection)
    (breakpoints : List String) (override : Option StyleNode) :
    definition.resolve (definition.normalize selection) breakpoints override =
        definition.declaredPart.resolve selection breakpoints override ∧
      (∀ error,
        definition.resolve (definition.normalize selection) breakpoints override = .error error ↔
          definition.resolve selection breakpoints override = .error error) ∧
      ∀ picks, definition.picks selection breakpoints = .ok picks →
        (∀ compound ∈ definition.compounds, compound.holds selection (Pick.inEffect picks) = true →
          definition.declares compound = true) →
        definition.resolve (definition.normalize selection) breakpoints override =
          definition.resolve selection breakpoints override := by
  have same_picks : definition.declaredPart.picks selection breakpoints =
      definition.picks selection breakpoints := picksOf_declaredPart definition.groups
  rw [resolve_eq, resolve_eq, resolve_eq, picks_normalize, same_picks]
  cases picked : definition.picks selection breakpoints with
  | error error => exact ⟨rfl, fun _ => Iff.rfl, fun _ _ _ => rfl⟩
  | ok picks =>
    simp only [Except.map, Except.ok.injEq, reduceCtorEq, iff_self, implies_true, true_and,
      layCompounds_normalize picked]
    refine ⟨rfl, ?_⟩
    rintro _ rfl declared
    rw [← layCompounds_normalize picked, layCompounds_of_declared picked declared]

/-- A compound variant on a group that is not declared holds with one selection, and with no normal
form. -/
theorem resolve_normalize_of_undeclared :
    let definition : StyleDefinition :=
      ⟨[], [], [⟨[("theme", "dark")], [("color", .text "red")]⟩], []⟩
    let dark : VariantSelection := [("theme", .single "dark")]
    let light : VariantSelection := [("theme", .single "light")]
    definition.resolve dark [] none = .ok [("color", .text "red")] ∧
      definition.resolve (definition.normalize dark) [] none = .ok [] ∧
      definition.declaredPart.resolve dark [] none = .ok [] ∧
      definition.resolve (definition.normalize light) [] none =
        definition.resolve light [] none := by
  intro definition dark light
  obtain ⟨same, -, -⟩ := resolve_normalize definition dark [] none
  obtain ⟨-, -, alike⟩ := resolve_normalize definition light [] none
  have normal : definition.resolve (definition.normalize dark) [] none = .ok [] := rfl
  have untested : ∀ compound ∈ definition.compounds,
      compound.holds light (Pick.inEffect []) = true → definition.declares compound = true := by
    intro compound member holds
    obtain rfl := List.mem_singleton.mp member
    cases holds
  exact ⟨rfl, normal, same.symm.trans normal, alike [] rfl untested⟩

end Normalize

section InEffect

theorem compared?_inEffect {picks : List Pick} (lays : Pick.valuesOf group picks ≠ []) :
    selection.compared? (Pick.inEffect picks) group = (Pick.valuesOf group picks).head? := by
  have first : Keyed.get? (Pick.inEffect picks) group = (Pick.valuesOf group picks).head? := by
    rw [Keyed.get?_eq_find?, Pick.valuesOf, List.head?_map, List.head?_filter]
  rw [VariantSelection.compared?, first, List.head?_eq_some_head lays]
  rfl

/-- A value that a group lays without a breakpoint is asked for at `@initial`, or is the default in
place of one that is. -/
theorem exists_asked_of_mem_valuesOf (distinct : definition.groups.names.Nodup) {picks : List Pick}
    (picked : definition.picks selection breakpoints = .ok picks) {values : Keyed StyleNode}
    (declared : definition.group? group = some values) {value : String}
    (member : value ∈ Pick.valuesOf group picks) :
    ∃ asked node, (VariantValue.initialKey, asked) ∈ definition.asked selection group ∧
      definition.variantNode group values asked = .ok (value, node) := by
  obtain ⟨entry, inside, rfl⟩ := List.mem_map.mp member
  obtain ⟨laid, named⟩ := List.mem_filter.mp inside
  obtain ⟨pick, plain, rfl⟩ := List.mem_map.mp laid
  obtain ⟨within, unranked⟩ := List.mem_filter.mp plain
  obtain rfl : pick.group = group := of_decide_eq_true named
  obtain ⟨found, present, ⟨key, asked⟩, asks, -, ranked, chosen⟩ :=
    exists_of_mem_picksOf picked within
  obtain rfl : values = found :=
    Option.some.inj (declared.symm.trans ((Keyed.get?_eq_some distinct).mpr present))
  rw [show pick.branch.rank = 0 from of_decide_eq_true unranked] at ranked
  obtain rfl := breakpointRank?_injective ranked (if_pos rfl)
  exact ⟨asked, pick.branch.node, asks, chosen⟩

/-- A group that is asked for one value at `@initial` lays one value without a breakpoint. -/
theorem valuesOf_alike (distinct : definition.groups.names.Nodup) {picks : List Pick}
    (picked : definition.picks selection breakpoints = .ok picks)
    (once : ∀ first second, (VariantValue.initialKey, first) ∈ definition.asked selection group →
      (VariantValue.initialKey, second) ∈ definition.asked selection group → first = second)
    {first second : String} (left : first ∈ Pick.valuesOf group picks)
    (right : second ∈ Pick.valuesOf group picks) : first = second := by
  obtain ⟨entry, inside, -⟩ := List.mem_map.mp left
  obtain ⟨laid, named⟩ := List.mem_filter.mp inside
  obtain rfl : entry.1 = group := of_decide_eq_true named
  obtain ⟨values, declared⟩ := Option.isSome_iff_exists.mp (declared_of_mem_inEffect picked laid)
  obtain ⟨asked, node, asks, chosen⟩ := exists_asked_of_mem_valuesOf distinct picked declared left
  obtain ⟨other, node_second, asks_second, chosen_second⟩ :=
    exists_asked_of_mem_valuesOf distinct picked declared right
  obtain rfl := once asked other asks asks_second
  exact (Prod.ext_iff.mp (Except.ok.inj (chosen.symm.trans chosen_second))).1

theorem head?_eq_getLast?_of_alike {items : List String}
    (alike : ∀ first ∈ items, ∀ second ∈ items, first = second) : items.head? = items.getLast? := by
  cases items with
  | nil => rfl
  | cons head rest =>
    rw [List.head?_cons, List.getLast?_eq_some_getLast (List.cons_ne_nil head rest)]
    exact congrArg some (alike head List.mem_cons_self _ (List.getLast_mem _))

/-- A predicate on a group that lays values without a breakpoint tests the first of them. So it
tests the one that is merged last, the value in effect, exactly if the two are one value; which they
are whenever the selection does not ask the group for different values at `@initial`. -/
theorem predicates_test_first {node : StyleNode}
    (resolved : definition.resolve selection breakpoints override = .ok node) :
    ∃ picks, definition.picks selection breakpoints = .ok picks ∧
      node = StyleNode.merge
        (definition.layCompounds selection (Pick.inEffect picks)
          (Pick.layAll definition.base picks))
        (override.getD []) ∧
      ∀ group, Pick.valuesOf group picks ≠ [] →
        (∀ value, selection.compared? (Pick.inEffect picks) group = some value ↔
          (Pick.valuesOf group picks).head? = some value) ∧
        ((∀ value, selection.compared? (Pick.inEffect picks) group = some value ↔
            (Pick.valuesOf group picks).getLast? = some value) ↔
          (Pick.valuesOf group picks).head? = (Pick.valuesOf group picks).getLast?) ∧
        (definition.groups.names.Nodup →
          (∀ first second, (VariantValue.initialKey, first) ∈ definition.asked selection group →
            (VariantValue.initialKey, second) ∈ definition.asked selection group → first = second) →
          (Pick.valuesOf group picks).head? = (Pick.valuesOf group picks).getLast?) := by
  rw [resolve_eq] at resolved
  cases picked : definition.picks selection breakpoints with
  | error error => simp [picked, Except.map] at resolved
  | ok picks =>
    simp only [picked, Except.map, Except.ok.injEq] at resolved
    refine ⟨picks, rfl, resolved.symm, ?_⟩
    intro group lays
    have compares : selection.compared? (Pick.inEffect picks) group =
        (Pick.valuesOf group picks).head? := compared?_inEffect lays
    refine ⟨fun value => by rw [compares], ?_, ?_⟩
    · rw [compares]
      constructor
      · intro alike
        have first := List.head?_eq_some_head lays
        rw [(alike _).mp first, first]
      · intro same value
        rw [same]
    · intro distinct once
      apply head?_eq_getLast?_of_alike
      intro first left second right
      exact valuesOf_alike distinct picked once left right

/-- Of two values at `@initial` the second one is laid over the first, which the compound variant
tests. -/
theorem predicates_test_first_of_two :
    let definition : StyleDefinition :=
      ⟨[], [("size", [("a", [("color", .text "red")]), ("b", [("color", .text "blue")])])],
        [⟨[("size", "b")], [("border", .text "1px")]⟩], []⟩
    let selection : VariantSelection :=
      [("size", .responsive [("@initial", "a"), ("@initial", "b")])]
    definition.resolve selection [] none = .ok [("color", .text "blue")] ∧
      ∃ picks, definition.picks selection [] = .ok picks ∧
        (Pick.valuesOf "size" picks).getLast? = some "b" ∧
        ¬ selection.compared? (Pick.inEffect picks) "size" = some "b" ∧
        selection.compared? (Pick.inEffect picks) "size" = some "a" := by
  intro definition selection
  let branches : List Branch := [⟨0, "@initial", "a", [("color", .text "red")]⟩,
    ⟨0, "@initial", "b", [("color", .text "blue")]⟩]
  let picks : List Pick := branches.map (Pick.mk "size")
  have in_turn : branches.mergeSort (fun first second => first.rank ≤ second.rank) = branches :=
    List.mergeSort_of_pairwise (by decide)
  have picked : definition.picks selection [] = .ok picks := by
    have unsorted : definition.picks selection [] = .ok ((branches.mergeSort
        (fun first second => first.rank ≤ second.rank)).map (Pick.mk "size") ++ []) := rfl
    rw [unsorted, in_turn]
    rfl
  have resolved : definition.resolve selection [] none = .ok [("color", .text "blue")] := by
    rw [resolve_eq, picked]
    rfl
  obtain ⟨found, same, -, tests⟩ := predicates_test_first resolved
  obtain rfl : picks = found := Except.ok.inj (picked.symm.trans same)
  obtain ⟨first, -, -⟩ := tests "size" (by decide)
  refine ⟨resolved, picks, picked, by decide, ?_, (first "a").mpr (by decide)⟩
  rw [first "b"]
  decide

end InEffect

end AtomicCss.StyleDefinition
