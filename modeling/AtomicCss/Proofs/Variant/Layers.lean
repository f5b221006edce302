import AtomicCss.Proofs.Style.Keys
import AtomicCss.Proofs.Variant.Selection

/-!
What a style resolves to, layer by layer.

Whatever a selection asks for, the layers that apply are merged, those of a breakpoint under its
key. So a property of style objects that merging and breakpoint keys keep passes from the layers to
the result. And a definition whose defaults were checked refuses a selection only for what the
selection itself asks.
-/

namespace AtomicCss

/-- The values that are asked for. -/
def VariantValue.texts : VariantValue → List String
  | single value => [value]
  | responsive branches => branches.map (·.2)

namespace StyleDefinition

theorem forall_layers {definition : StyleDefinition} {Holds : StyleNode → Prop} :
    (∀ layer ∈ definition.layers, Holds layer.2) ↔
      Holds definition.base ∧
        (∀ group ∈ definition.groups, ∀ value ∈ group.2, Holds value.2) ∧
        ∀ compound ∈ definition.compounds, Holds compound.css := by
  simp only [layers, List.cons_append, List.forall_mem_cons, List.forall_mem_append,
    List.mem_flatMap, List.mem_map, List.mem_mapIdx,
    List.mem_iff_getElem (l := definition.compounds)]
  refine and_congr_right fun _ => and_congr ?_ ?_
  · constructor
    · intro all group member value inside
      exact all ("variants." ++ group.1 ++ "." ++ value.1, value.2)
        ⟨group, member, value, inside, rfl⟩
    · rintro all layer ⟨group, member, value, inside, rfl⟩
      exact all group member value inside
  · constructor
    · rintro all compound ⟨index, within, rfl⟩
      exact all _ ⟨index, within, rfl⟩
    · rintro all layer ⟨index, within, rfl⟩
      exact all _ ⟨index, within, rfl⟩

variable {definition : StyleDefinition} {breakpoints : List String} {selection : VariantSelection}
  {override : Option StyleNode} {group value : String} {values : Keyed StyleNode}

theorem mem_of_variantNode {name : String} {node : StyleNode}
    (chosen : definition.variantNode group values value = .ok (name, node)) :
    (name, node) ∈ values := by
  unfold variantNode at chosen
  split at chosen
  · next found =>
    cases chosen
    exact Keyed.mem_of_get? found
  · split at chosen
    · next found =>
      cases chosen
      obtain ⟨default, -, there⟩ := Option.bind_eq_some_iff.mp found
      obtain ⟨style, present, same⟩ := Option.map_eq_some_iff.mp there
      exact same ▸ Keyed.mem_of_get? present
    · cases chosen

section Holds

/-- What a definition may contribute. -/
def IsLayer (definition : StyleDefinition) (node : StyleNode) : Prop :=
  ∃ layer ∈ definition.layers, layer.2 = node

theorem isLayer_parts (definition : StyleDefinition) :
    definition.IsLayer definition.base ∧
      (∀ group ∈ definition.groups, ∀ value ∈ group.2, definition.IsLayer value.2) ∧
      ∀ compound ∈ definition.compounds, definition.IsLayer compound.css :=
  forall_layers.mp fun layer member => ⟨layer, member, rfl⟩

/-- A property of style objects that merging a layer keeps, as it is or under a breakpoint key. -/
structure Closed (definition : StyleDefinition) (breakpoints : List String)
    (Holds : StyleNode → Prop) : Prop where
  layer : ∀ {node layer}, Holds node → definition.IsLayer layer → Holds (StyleNode.merge node layer)
  branch : ∀ {node layer key rank}, Holds node → definition.IsLayer layer →
    breakpointRank? breakpoints key = some rank → Holds (StyleNode.merge node [(key, .node layer)])

variable {Holds : StyleNode → Prop}

theorem Closed.layBranches (closed : definition.Closed breakpoints Holds) {asked : List Branch}
    (each : ∀ branch ∈ asked, breakpointRank? breakpoints branch.key = some branch.rank ∧
      definition.IsLayer branch.node) {merged : Merged} (holds : Holds merged.node) :
    Holds (asked.foldl (layBranch group) merged).node := by
  induction asked generalizing merged with
  | nil => exact holds
  | cons branch rest ih =>
    obtain ⟨⟨ranked, own⟩, others⟩ := List.forall_mem_cons.mp each
    apply ih others
    unfold layBranch
    split
    · exact closed.layer holds own
    · exact closed.branch holds own ranked

theorem ranked_of_branches (declared : (group, values) ∈ definition.groups)
    {asked : List (String × String)} {found : List Branch}
    (made : definition.branches breakpoints group values asked = .ok found) {branch : Branch}
    (member : branch ∈ found) :
    breakpointRank? breakpoints branch.key = some branch.rank ∧ definition.IsLayer branch.node := by
  obtain ⟨entry, -, key, ranked, chosen⟩ := exists_left_of_forall₂ (branches_eq_ok.mp made) member
  exact ⟨key ▸ ranked, definition.isLayer_parts.2.1 _ declared _ (mem_of_variantNode chosen)⟩

theorem Closed.layGroup (closed : definition.Closed breakpoints Holds)
    (declared : (group, values) ∈ definition.groups) {merged after : Merged}
    (holds : Holds merged.node)
    (laid : definition.layGroup selection breakpoints merged group values = .ok after) :
    Holds after.node := by
  have chosen {value : String}
      (laid : (definition.variantNode group values value >>= fun found =>
        pure (merged.choose group found.1 found.2)) = .ok after) : Holds after.node := by
    obtain ⟨⟨name, node⟩, found, last⟩ := bind_eq_ok.mp laid
    obtain rfl := Except.ok.inj last
    exact closed.layer holds (definition.isLayer_parts.2.1 _ declared _ (mem_of_variantNode found))
  unfold StyleDefinition.layGroup at laid
  split at laid
  · split at laid
    · exact Except.ok.inj laid ▸ holds
    · exact chosen laid
  · exact chosen laid
  · obtain ⟨found, made, last⟩ := bind_eq_ok.mp laid
    obtain rfl := Except.ok.inj last
    exact closed.layBranches
      (fun branch member => ranked_of_branches declared made (List.mem_mergeSort.mp member)) holds

theorem Closed.layGroups (closed : definition.Closed breakpoints Holds)
    {groups : Keyed (Keyed StyleNode)}
    (within : groups ⊆ definition.groups) {merged after : Merged} (holds : Holds merged.node)
    (laid : groups.foldlM (fun merged (group, values) =>
      definition.layGroup selection breakpoints merged group values) merged = .ok after) :
    Holds after.node := by
  refine foldlM_keeps (fun merged => Holds merged.node) ?_ holds laid
  intro merged holds entry member next step
  exact closed.layGroup (within member) holds step

theorem Closed.layCompounds (closed : definition.Closed breakpoints Holds)
    {compounds : List CompoundVariant}
    (each : ∀ compound ∈ compounds, definition.IsLayer compound.css) {node : StyleNode}
    (holds : Holds node) :
    Holds (compounds.foldl (fun node compound => StyleNode.merge node compound.css) node) := by
  induction compounds generalizing node with
  | nil => exact holds
  | cons compound rest ih =>
    obtain ⟨own, others⟩ := List.forall_mem_cons.mp each
    exact ih others (closed.layer holds own)

/-- What holds of the base holds of what the layers are merged into. -/
theorem Closed.resolve (closed : definition.Closed breakpoints Holds) (base : Holds definition.base)
    {node : StyleNode} (resolved : definition.resolve selection breakpoints none = .ok node) :
    Holds node := by
  obtain ⟨merged, laid, last⟩ := bind_eq_ok.mp resolved
  obtain rfl := Except.ok.inj last
  apply closed.layCompounds _ (closed.layGroups (List.Subset.refl _) base laid)
  intro compound member
  exact definition.isLayer_parts.2.2 compound (List.mem_of_mem_filter member)

end Holds

section Refusals

theorem variantNode_eq_error {error : StyleError}
    (failed : definition.variantNode group values value = .error error) :
    error = .unknownVariantValue group value ∧ values.get? value = none ∧
      ∀ default, definition.default? group = some default → values.get? default = none := by
  unfold variantNode at failed
  split at failed
  · cases failed
  · next absent =>
    split at failed
    · cases failed
    · next nothing =>
      cases failed
      refine ⟨rfl, absent, ?_⟩
      intro default named
      simpa [named] using nothing

theorem branches_eq_error {asked : List (String × String)} {error : StyleError}
    (failed : definition.branches breakpoints group values asked = .error error) :
    (∃ key ∈ asked.map (·.1), breakpointRank? breakpoints key = none ∧
        error = .invalid (group ++ "." ++ key) .unknownBreakpoint) ∨
      ∃ value ∈ asked.map (·.2), definition.variantNode group values value = .error error := by
  induction asked with
  | nil => cases failed
  | cons entry rest ih =>
    obtain ⟨key, value⟩ := entry
    rw [branches] at failed
    split at failed
    · next unranked =>
      cases failed
      exact .inl ⟨key, List.mem_cons_self, unranked, rfl⟩
    · rcases bind_eq_error.mp failed with own | ⟨chosen, -, later⟩
      · exact .inr ⟨value, List.mem_cons_self, own⟩
      · rcases bind_eq_error.mp later with others | ⟨_, -, never⟩
        · rcases ih others with ⟨other, member, found⟩ | ⟨other, member, found⟩
          · exact .inl ⟨other, List.mem_cons_of_mem _ member, found⟩
          · exact .inr ⟨other, List.mem_cons_of_mem _ member, found⟩
        · cases never

/-- Why a selection is refused: it asks a group without a default for a value that the group lacks,
or for a breakpoint that there is not. -/
inductive Refused (definition : StyleDefinition) (breakpoints : List String)
    (selection : VariantSelection) : StyleError → Prop where
  | value {group values asked value} : definition.group? group = some values →
      Keyed.get? selection group = some asked → value ∈ asked.texts →
      Keyed.get? values value = none →
      definition.default? group = none →
      Refused definition breakpoints selection (.unknownVariantValue group value)
  | breakpoint {group values asked key} : definition.group? group = some values →
      Keyed.get? selection group = some (.responsive asked) → key ∈ asked.map (·.1) →
      breakpointRank? breakpoints key = none →
      Refused definition breakpoints selection (.invalid (group ++ "." ++ key) .unknownBreakpoint)

theorem contains_default (checked : definition.validateDefaults = .ok ())
    (declared : definition.group? group = some values) {default : String}
    (named : definition.default? group = some default) : values.get? default ≠ none := by
  unfold validateDefaults at checked
  split at checked
  · cases checked
  · next none_bad =>
    have good := List.find?_eq_none.mp none_bad (group, default) (Keyed.mem_of_get? named)
    simpa [isBadDefault, declared, Keyed.contains] using good

theorem layGroup_eq_error (checked : definition.validateDefaults = .ok ())
    (declared : definition.group? group = some values) {merged : Merged} {error : StyleError}
    (failed : definition.layGroup selection breakpoints merged group values = .error error) :
    Refused definition breakpoints selection error := by
  have unknown {value : String} {asked : VariantValue}
      (asks : Keyed.get? selection group = some asked)
      (member : value ∈ asked.texts)
      (failed : definition.variantNode group values value = .error error) :
      Refused definition breakpoints selection error := by
    obtain ⟨rfl, absent, no_default⟩ := variantNode_eq_error failed
    apply Refused.value declared asks member absent
    cases named : definition.default? group with
    | none => rfl
    | some default =>
      exact absurd (no_default default named) (contains_default checked declared named)
  have chosen {value : String}
      (failed : (definition.variantNode group values value >>= fun found =>
        pure (merged.choose group found.1 found.2)) = .error error) :
      definition.variantNode group values value = .error error := by
    rcases bind_eq_error.mp failed with own | ⟨_, -, never⟩
    · exact own
    · cases never
  unfold layGroup at failed
  split at failed
  · split at failed
    · cases failed
    · next default named =>
      obtain ⟨-, absent, -⟩ := variantNode_eq_error (chosen failed)
      exact absurd absent (contains_default checked declared named)
  · next value asks => exact unknown asks List.mem_cons_self (chosen failed)
  · next asked asks =>
    rcases bind_eq_error.mp failed with own | ⟨_, -, never⟩
    · rcases branches_eq_error own with ⟨key, member, unranked, rfl⟩ | ⟨value, member, own⟩
      · exact .breakpoint declared asks member unranked
      · exact unknown asks member own
    · cases never

/-- A definition with checked defaults refuses nothing but what the selection asks. -/
theorem refused_of_resolve (distinct : (definition.groups.map (·.1)).Nodup)
    (checked : definition.validateDefaults = .ok ()) {error : StyleError}
    (failed : definition.resolve selection breakpoints override = .error error) :
    Refused definition breakpoints selection error := by
  rcases bind_eq_error.mp failed with own | ⟨_, -, never⟩
  · obtain ⟨⟨group, values⟩, member, merged, own⟩ := foldlM_eq_error own
    exact layGroup_eq_error checked ((Keyed.get?_eq_some distinct).mpr member) own
  · cases never

/-- So it refuses nothing to a selection that asks nothing. -/
theorem not_refused_nil {error : StyleError} : ¬ Refused definition breakpoints [] error := by
  intro refused
  cases refused with
  | value _ asks => cases asks
  | breakpoint _ asks => cases asks

end Refusals

theorem names_groupEntries {entries : List (String × StyleValue)} {groups : Keyed (Keyed StyleNode)}
    (read : groupEntries entries = .ok groups) : groups.map (·.1) = entries.map (·.1) := by
  induction entries generalizing groups with
  | nil => exact Except.ok.inj read ▸ rfl
  | cons entry rest ih =>
    obtain ⟨group, value⟩ := entry
    cases value with
    | node values =>
      obtain ⟨own, -, others⟩ := bind_eq_ok.mp read
      obtain ⟨more, found, last⟩ := bind_eq_ok.mp others
      obtain rfl := Except.ok.inj last
      rw [List.map_cons, List.map_cons, ih found]
    | _ => cases read

theorem nodup_parseGroups {value : StyleValue} (once : value.keysOnce = true)
    {groups : Keyed (Keyed StyleNode)} (read : parseGroups value = .ok groups) :
    (groups.map (·.1)).Nodup := by
  cases value with
  | node entries =>
    rw [names_groupEntries read]
    exact (StyleValue.keysOnce_node.mp once).1
  | _ => cases read

theorem nodup_addEntry {key : String} {value : StyleValue} (once : value.keysOnce = true)
    (distinct : (definition.groups.map (·.1)).Nodup) {next : StyleDefinition}
    (added : definition.addEntry key value = .ok next) : (next.groups.map (·.1)).Nodup := by
  unfold addEntry at added
  split at added
  · obtain ⟨groups, read, last⟩ := bind_eq_ok.mp added
    obtain rfl := Except.ok.inj last
    exact nodup_parseGroups once read
  · obtain ⟨_, -, last⟩ := bind_eq_ok.mp added
    exact Except.ok.inj last ▸ distinct
  · obtain ⟨_, -, last⟩ := bind_eq_ok.mp added
    exact Except.ok.inj last ▸ distinct
  · exact Except.ok.inj added ▸ distinct

theorem nodup_groups_of_parse {node : StyleNode} (once : node.keysOnce = true)
    (parsed : parse node = .ok definition) : (definition.groups.map (·.1)).Nodup := by
  obtain ⟨-, each⟩ := StyleValue.keysOnce_node.mp once
  refine foldlM_keeps (fun definition => (definition.groups.map (·.1)).Nodup) ?_
    List.nodup_nil parsed
  intro definition distinct entry member next added
  exact nodup_addEntry (each entry member) distinct added

end StyleDefinition

end AtomicCss
