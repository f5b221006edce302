import AtomicCss.Proofs.Json.Reading
import AtomicCss.Proofs.Style.UniqueKeys
import AtomicCss.Proofs.Variant.Composition
import AtomicCss.Proofs.Variant.Layers
import AtomicCss.Proofs.Variant.Override

/-!
Style objects are maps, however they are made.

What makes style objects makes them of objects that hold each key once, at every depth, and brings
no second entry under a key. The same goes for the groups, the values and the defaults of
definitions, which are parsed from style objects, composed, and resolved to style objects again. So
all that is made by such operations, in whatever order, holds each key once: lookups see a finite
map, and the JSON of an object has all of its entries.
-/

namespace AtomicCss

namespace Json

mutual

/-- The value whose objects are built by setting their fields one after another, as maps are. -/
def asMaps : Json → Json
  | array items => .array (itemsAsMaps items)
  | object fields => .object (Keyed.ofList (fieldsAsMaps fields))
  | json => json

def itemsAsMaps : List Json → List Json
  | [] => []
  | item :: rest => item.asMaps :: itemsAsMaps rest

def fieldsAsMaps : List (String × Json) → List (String × Json)
  | [] => []
  | (name, json) :: rest => (name, json.asMaps) :: fieldsAsMaps rest

end

mutual

/-- Maps hold all of a value that holds each key once. -/
theorem asMaps_of_keysOnce (json : Json) (once : json.keysOnce = true) : json.asMaps = json := by
  match json with
  | .array items =>
    rw [keysOnce] at once
    rw [asMaps, itemsAsMaps_of_keysOnce items once]
  | .object fields =>
    rw [keysOnce, Bool.and_eq_true, decide_eq_true_eq] at once
    rw [asMaps, fieldsAsMaps_of_keysOnce fields once.2, Keyed.ofList_of_nodup once.1]
  | .null | .bool _ | .whole _ | .float _ | .text _ => rfl

theorem itemsAsMaps_of_keysOnce (items : List Json) (once : itemsKeysOnce items = true) :
    itemsAsMaps items = items := by
  match items with
  | [] => rfl
  | item :: rest =>
    rw [itemsKeysOnce, Bool.and_eq_true] at once
    rw [itemsAsMaps, asMaps_of_keysOnce item once.1, itemsAsMaps_of_keysOnce rest once.2]

theorem fieldsAsMaps_of_keysOnce (fields : List (String × Json))
    (once : fieldsKeysOnce fields = true) :
    fieldsAsMaps fields = fields := by
  match fields with
  | [] => rfl
  | (name, json) :: rest =>
    rw [fieldsKeysOnce, Bool.and_eq_true] at once
    rw [fieldsAsMaps, asMaps_of_keysOnce json once.1, fieldsAsMaps_of_keysOnce rest once.2]

end

end Json

namespace StyleDefinition

open StyleValue (keysOnce_node)

/-- The values of a group, each named once and each of it an object that holds its keys once. -/
def ValuesOnce (values : Keyed StyleNode) : Prop :=
  values.names.Nodup ∧ ∀ value ∈ values, value.2.keysOnce = true

/-- A definition that names groups, values and defaults once, with layers that hold each key
once. -/
structure KeysOnce (definition : StyleDefinition) : Prop extends NamesOnce definition where
  values : ∀ group ∈ definition.groups, group.2.names.Nodup
  layers : ∀ layer ∈ definition.layers, layer.2.keysOnce = true

theorem keysOnce_iff {definition : StyleDefinition} :
    definition.KeysOnce ↔
      definition.base.keysOnce = true ∧ definition.groups.names.Nodup ∧
        (∀ group ∈ definition.groups, ValuesOnce group.2) ∧
        (∀ compound ∈ definition.compounds, compound.css.keysOnce = true) ∧
        definition.defaults.names.Nodup := by
  have each_layer := @forall_layers definition fun node => node.keysOnce = true
  constructor
  · intro once
    obtain ⟨base, groups, compounds⟩ := each_layer.mp once.layers
    exact ⟨base, once.groups,
      fun group member => ⟨once.values group member, groups group member⟩, compounds, once.defaults⟩
  · rintro ⟨base, distinct, groups, compounds, defaults⟩
    exact ⟨⟨(keysOnce_node.mp base).1, distinct, defaults⟩,
      fun group member => (groups group member).1,
      each_layer.mpr ⟨base, fun group member => (groups group member).2, compounds⟩⟩

theorem keysOnce_empty : empty.KeysOnce := by
  simp [keysOnce_iff, empty, StyleNode.keysOnce, StyleValue.keysOnce, StyleValue.entriesKeysOnce,
    Keyed.names]

section Parsing

theorem eq_of_groupValues {path : String} {entries : List (String × StyleValue)}
    {values : Keyed StyleNode} (read : groupValues path entries = .ok values) :
    entries = values.map fun (name, node) => (name, .node node) := by
  induction entries generalizing values with
  | nil =>
    obtain rfl := Except.ok.inj read
    rfl
  | cons entry rest ih =>
    obtain ⟨name, value⟩ := entry
    cases value with
    | node style =>
      obtain ⟨others, found, last⟩ := bind_eq_ok.mp read
      obtain rfl := Except.ok.inj last
      rw [List.map_cons, ← ih found]
    | _ => cases read

theorem valuesOnce_of_groupValues {path : String} {entries : StyleNode}
    (once : entries.keysOnce = true) {values : Keyed StyleNode}
    (read : groupValues path entries = .ok values) : ValuesOnce values := by
  obtain ⟨distinct, each⟩ := keysOnce_node.mp once
  rw [eq_of_groupValues read] at distinct each
  rw [List.map_map] at distinct
  exact ⟨distinct, fun value member => each _ (List.mem_map_of_mem member)⟩

theorem valuesOnce_of_groupEntries {entries : List (String × StyleValue)}
    (each : ∀ entry ∈ entries, entry.2.keysOnce = true) {groups : Keyed (Keyed StyleNode)}
    (read : groupEntries entries = .ok groups) : ∀ group ∈ groups, ValuesOnce group.2 := by
  induction entries generalizing groups with
  | nil =>
    obtain rfl := Except.ok.inj read
    exact List.forall_mem_nil _
  | cons entry rest ih =>
    obtain ⟨own, others⟩ := List.forall_mem_cons.mp each
    obtain ⟨name, value⟩ := entry
    cases value with
    | node style =>
      obtain ⟨values, here, found⟩ := bind_eq_ok.mp read
      obtain ⟨more, there, last⟩ := bind_eq_ok.mp found
      obtain rfl := Except.ok.inj last
      exact List.forall_mem_cons.mpr ⟨valuesOnce_of_groupValues own here, ih others there⟩
    | _ => cases read

theorem valuesOnce_of_parseGroups {value : StyleValue} (once : value.keysOnce = true)
    {groups : Keyed (Keyed StyleNode)} (read : parseGroups value = .ok groups) :
    ∀ group ∈ groups, ValuesOnce group.2 := by
  cases value with
  | node entries => exact valuesOnce_of_groupEntries (keysOnce_node.mp once).2 read
  | _ => cases read

theorem keysOnce_compoundEntry {path key : String} {compound next : CompoundVariant}
    {value : StyleValue} (once : value.keysOnce = true) (own : compound.css.keysOnce = true)
    (read : compoundEntry path compound key value = .ok next) : next.css.keysOnce = true := by
  unfold compoundEntry at read
  split at read
  · split at read
    · obtain rfl := Except.ok.inj read
      exact once
    · cases read
  · split at read
    · obtain rfl := Except.ok.inj read
      exact own
    · cases read

theorem keysOnce_compoundItems {index : Nat} {items : List StyleValue}
    (each : ∀ item ∈ items, item.keysOnce = true) {compounds : List CompoundVariant}
    (read : compoundItems index items = .ok compounds) :
    ∀ compound ∈ compounds, compound.css.keysOnce = true := by
  induction items generalizing index compounds with
  | nil =>
    obtain rfl := Except.ok.inj read
    exact List.forall_mem_nil _
  | cons item rest ih =>
    obtain ⟨own, others⟩ := List.forall_mem_cons.mp each
    cases item with
    | node entries =>
      obtain ⟨compound, here, found⟩ := bind_eq_ok.mp read
      obtain ⟨more, there, last⟩ := bind_eq_ok.mp found
      obtain rfl := Except.ok.inj last
      refine List.forall_mem_cons.mpr ⟨?_, ih others there⟩
      refine foldlM_keeps (fun compound => compound.css.keysOnce = true) ?_ rfl here
      intro compound held entry member next added
      exact keysOnce_compoundEntry ((keysOnce_node.mp own).2 entry member) held added
    | _ => cases read

theorem keysOnce_parseCompounds {value : StyleValue} (once : value.keysOnce = true)
    {compounds : List CompoundVariant} (read : parseCompounds value = .ok compounds) :
    ∀ compound ∈ compounds, compound.css.keysOnce = true := by
  cases value with
  | list items => exact keysOnce_compoundItems (StyleValue.keysOnce_list.mp once) read
  | node entries => exact keysOnce_compoundItems (List.forall_mem_singleton.mpr once) read
  | _ => cases read

theorem names_defaultEntries {entries : List (String × StyleValue)} {defaults : Keyed String}
    (read : defaultEntries entries = .ok defaults) : defaults.names = entries.map (·.1) := by
  induction entries generalizing defaults with
  | nil =>
    obtain rfl := Except.ok.inj read
    rfl
  | cons entry rest ih =>
    rw [defaultEntries] at read
    split at read
    · obtain ⟨others, found, last⟩ := bind_eq_ok.mp read
      obtain rfl := Except.ok.inj last
      rw [List.map_cons, ← ih found]
      rfl
    · cases read

theorem nodup_parseDefaults {value : StyleValue} (once : value.keysOnce = true)
    {defaults : Keyed String} (read : parseDefaults value = .ok defaults) :
    defaults.names.Nodup := by
  cases value with
  | node entries =>
    rw [names_defaultEntries read]
    exact (keysOnce_node.mp once).1
  | _ => cases read

variable {definition : StyleDefinition}

theorem KeysOnce.addEntry (held : definition.KeysOnce) {key : String} {value : StyleValue}
    (once : value.keysOnce = true) {next : StyleDefinition}
    (added : definition.addEntry key value = .ok next) :
    next.KeysOnce := by
  obtain ⟨base, distinct, groups, compounds, defaults⟩ := keysOnce_iff.mp held
  apply keysOnce_iff.mpr
  unfold StyleDefinition.addEntry at added
  split at added
  · obtain ⟨read, found, last⟩ := bind_eq_ok.mp added
    obtain rfl := Except.ok.inj last
    exact ⟨base, nodup_parseGroups once found, valuesOnce_of_parseGroups once found,
      compounds, defaults⟩
  · obtain ⟨read, found, last⟩ := bind_eq_ok.mp added
    obtain rfl := Except.ok.inj last
    exact ⟨base, distinct, groups, keysOnce_parseCompounds once found, defaults⟩
  · obtain ⟨read, found, last⟩ := bind_eq_ok.mp added
    obtain rfl := Except.ok.inj last
    exact ⟨base, distinct, groups, compounds, nodup_parseDefaults once found⟩
  · obtain rfl := Except.ok.inj added
    exact ⟨StyleNode.keysOnce_set base once key, distinct, groups, compounds, defaults⟩

theorem keysOnce_parse {node : StyleNode} (once : node.keysOnce = true)
    (parsed : parse node = .ok definition) :
    definition.KeysOnce := by
  refine foldlM_keeps KeysOnce ?_ keysOnce_empty parsed
  intro definition held entry member next added
  exact held.addEntry ((keysOnce_node.mp once).2 entry member) added

end Parsing

section Composing

/-- The style of a value laid over the one that it has. -/
def layNode : Option StyleNode → StyleNode → StyleNode
  | some current, node => StyleNode.merge current node
  | none, node => node

theorem mergeValues_eq_layAll (values incoming : Keyed StyleNode) :
    mergeValues values incoming = Keyed.layAll layNode values incoming := by
  unfold mergeValues Keyed.layAll
  congr 1
  funext values ⟨name, node⟩
  cases held : values.get? name <;> simp [held, layNode]

theorem ValuesOnce.mergeValues {values incoming : Keyed StyleNode} (held : ValuesOnce values)
    (once : ValuesOnce incoming) : ValuesOnce (mergeValues values incoming) := by
  rw [mergeValues_eq_layAll]
  refine ⟨Keyed.nodup_layAll layNode held.1 incoming, ?_⟩
  exact Keyed.forall_layAll (fun node => StyleNode.keysOnce node = true) (fun _ own => own)
    (fun current node => StyleNode.keysOnce_merge current node) held.2 once.2

theorem KeysOnce.mergeWith {composed part : StyleDefinition} (held : composed.KeysOnce)
    (once : part.KeysOnce) :
    (composed.mergeWith part).KeysOnce := by
  have names := held.toNamesOnce.mergeWith part
  obtain ⟨base, -, groups, compounds, -⟩ := keysOnce_iff.mp held
  obtain ⟨own_base, -, own_groups, own_compounds, -⟩ := keysOnce_iff.mp once
  refine keysOnce_iff.mpr ⟨StyleNode.keysOnce_merge _ _ base own_base, names.groups, ?_, ?_,
    names.defaults⟩
  · rw [StyleDefinition.mergeWith, mergeGroups_eq_layAll]
    exact Keyed.forall_layAll ValuesOnce (fun _ own => own)
      (fun _ _ held own => held.mergeValues own) groups own_groups
  · exact List.forall_mem_append.mpr ⟨compounds, own_compounds⟩

theorem keysOnce_compose {parts : List StyleDefinition} (each : ∀ part ∈ parts, part.KeysOnce) :
    (compose parts).KeysOnce := by
  have onto {composed : StyleDefinition} (held : composed.KeysOnce) :
      (parts.foldl StyleDefinition.mergeWith composed).KeysOnce := by
    induction parts generalizing composed with
    | nil => exact held
    | cons part rest ih =>
      obtain ⟨own, others⟩ := List.forall_mem_cons.mp each
      exact ih others (held.mergeWith own)
  exact onto keysOnce_empty

end Composing

theorem keysOnce_resolve {definition : StyleDefinition} (once : definition.KeysOnce)
    {selection : VariantSelection} {breakpoints : List String} {override : Option StyleNode}
    (own : ∀ node, override = some node → node.keysOnce = true) {node : StyleNode}
    (resolved : definition.resolve selection breakpoints override = .ok node) :
    node.keysOnce = true := by
  have of_layer {layer : StyleNode} (member : definition.IsLayer layer) :
      layer.keysOnce = true := by
    obtain ⟨_, inside, rfl⟩ := member
    exact once.layers _ inside
  have closed : definition.Closed breakpoints fun node => node.keysOnce = true := by
    constructor
    · intro node layer held member
      exact StyleNode.keysOnce_merge node layer held (of_layer member)
    · intro node layer key rank held member _
      refine StyleNode.keysOnce_merge node _ held (keysOnce_node.mpr ⟨by simp, ?_⟩)
      exact List.forall_mem_singleton.mpr (of_layer member)
  have base := (keysOnce_iff.mp once).1
  cases override with
  | none => exact closed.resolve base resolved
  | some override =>
    obtain ⟨lower, below, rfl⟩ := resolve_override resolved
    exact StyleNode.keysOnce_merge lower override (closed.resolve base below) (own override rfl)

end StyleDefinition

namespace Obtained

mutual

/-- A value that an entry can be set to, or that was taken from an object. -/
inductive Value : StyleValue → Prop where
  | text (content : String) : Value (.text content)
  | number (value : Binary64) : Value (.number value)
  | list {items : List StyleValue} : (∀ item ∈ items, Value item) → Value (.list items)
  | node {node : StyleNode} : Node node → Value (.node node)
  | entry {node : StyleNode} {key : String} {value : StyleValue} :
      Node node → node.get? key = some value → Value value
  | item {items : List StyleValue} {item : StyleValue} : Value (.list items) →
      item ∈ items → Value item

/-- A style object that is made by operations on others. -/
inductive Node : StyleNode → Prop where
  | ofJson {json : Json} {node : StyleNode} :
      json.keysOnce = true → StyleNode.ofJson json = .ok node → Node node
  | new : Node []
  | insert {node : StyleNode} {value : StyleValue} (key : String) :
      Node node → Value value → Node (node.set key value)
  | remove {node : StyleNode} (key : String) : Node node → Node (node.erase key)
  | merge {base other : StyleNode} : Node base → Node other → Node (StyleNode.merge base other)
  | expand {body : StyleNode} (value : StyleValue) : Node body →
      Node ((Utility.template body).expand value)
  | inner {node : StyleNode} : Value (.node node) → Node node
  | layer {definition : StyleDefinition} {path : String} {node : StyleNode} :
      Definition definition → (path, node) ∈ definition.layers → Node node
  | resolve {definition : StyleDefinition} {selection : VariantSelection}
      {breakpoints : List String}
      {override : Option StyleNode} {node : StyleNode} :
      Definition definition → (∀ node, override = some node → Node node) →
      definition.resolve selection breakpoints override = .ok node → Node node

/-- A definition that is parsed or composed of such. -/
inductive Definition : StyleDefinition → Prop where
  | parse {node : StyleNode} {definition : StyleDefinition} :
      Node node → StyleDefinition.parse node = .ok definition → Definition definition
  | compose {parts : List StyleDefinition} :
      (∀ part ∈ parts, Definition part) → Definition (StyleDefinition.compose parts)

end

open StyleValue (keysOnce_node keysOnce_list)

mutual

theorem Value.keysOnce {value : StyleValue} : Value value → value.keysOnce = true
  | .text _ => rfl
  | .number _ => rfl
  | .list each => keysOnce_list.mpr fun item member => (each item member).keysOnce
  | .node made => made.keysOnce
  | .entry made held => (keysOnce_node.mp made.keysOnce).2 _ (Keyed.mem_of_get? held)
  | .item made member => keysOnce_list.mp made.keysOnce _ member

theorem Node.keysOnce {node : StyleNode} : Node node → node.keysOnce = true
  | .ofJson once read => StyleNode.keysOnce_ofJson once read
  | .new => rfl
  | .insert key made own => StyleNode.keysOnce_set made.keysOnce own.keysOnce key
  | .remove key made => StyleNode.keysOnce_erase made.keysOnce key
  | .merge below above => StyleNode.keysOnce_merge _ _ below.keysOnce above.keysOnce
  | .expand value made => StyleNode.keysOnce_expand made.keysOnce value
  | .inner made => made.keysOnce
  | .layer made member => made.keysOnce.layers _ member
  | .resolve made own resolved =>
    StyleDefinition.keysOnce_resolve made.keysOnce
      (fun node same => (own node same).keysOnce) resolved

theorem Definition.keysOnce {definition : StyleDefinition} :
    Definition definition → definition.KeysOnce
  | .parse made parsed => StyleDefinition.keysOnce_parse made.keysOnce parsed
  | .compose each => StyleDefinition.keysOnce_compose fun part member => (each part member).keysOnce

end

/-- Style objects that are read from texts are obtained too, since the objects of JSON texts hold
each key once. -/
theorem node_of_ofText {text : String} {node : StyleNode}
    (read : StyleNode.ofText text = .ok node) :
    Node node := by
  unfold StyleNode.ofText at read
  split at read
  · next json parsed => exact .ofJson (Json.isSound_parse? parsed).keysOnce read
  · cases read

theorem toJson_eq (node : StyleNode) :
    node.toJson = .object (node.map fun (key, value) => (key, value.toJson)) := by
  rw [StyleNode.toJson, StyleValue.toJson]
  congr 1
  induction node with
  | nil => rfl
  | cons entry rest ih => rw [StyleValue.entriesToJson, ih, List.map_cons]

/-- Whatever is made by operations on style objects and definitions holds each key once, at every
depth, and each group, value and default of a definition. So setting, removing and merging act on
lookups as on those of finite maps, and the JSON of an object has each of its entries, though its
own objects are maps. -/
theorem obtained_are_maps :
    (∀ node, Node node → node.keysOnce = true) ∧
      (∀ definition, Definition definition → definition.KeysOnce) ∧
      (∀ node, Node node → ∀ (key other : String) (value : StyleValue),
        (node.set key value).get? other = (if other = key then some value else node.get? other) ∧
          (node.erase key).get? other = if other = key then none else node.get? other) ∧
      (∀ base other, Node base → Node other → ∀ key, (StyleNode.merge base other).get? key =
        match other.get? key with
        | some value => some (.lay (base.get? key) value)
        | none => base.get? key) ∧
      ∀ node, Node node → node.toJson.asMaps = node.toJson ∧
        node.toJson = .object (node.map fun (key, value) => (key, value.toJson)) := by
  refine ⟨fun node => Node.keysOnce, fun definition => Definition.keysOnce, ?_, ?_, ?_⟩
  · intro node made key other value
    exact ⟨Keyed.get?_set node key other value,
      Keyed.get?_erase (keysOnce_node.mp made.keysOnce).1 key other⟩
  · intro base other below above
    exact StyleNode.get?_merge (keysOnce_node.mp below.keysOnce).1
      (keysOnce_node.mp above.keysOnce).1
  · intro node made
    exact ⟨Json.asMaps_of_keysOnce _ (StyleValue.keysOnce_toJson _ made.keysOnce), toJson_eq node⟩

/-- A button that is read from JSON, laid over itself without its color, and composed with
itself. -/
theorem obtained_are_maps_of_button :
    let json : Json := .object [("color", .text "red"),
      ("variants", .object [("size", .object [("sm", .object [("top", .text "0")])])])]
    let node : StyleNode := [("color", .text "red"),
      ("variants", .node [("size", .node [("sm", .node [("top", .text "0")])])])]
    let definition : StyleDefinition :=
      ⟨[("color", .text "red")], [("size", [("sm", [("top", .text "0")])])], [], []⟩
    StyleNode.ofJson json = .ok node ∧ StyleDefinition.parse node = .ok definition ∧
      (StyleDefinition.compose [definition, definition]).KeysOnce ∧ node.keysOnce = true ∧
      (node.erase "color").get? "color" = none ∧
      (node.set "color" (.text "blue")).get? "color" = some (.text "blue") ∧
      (StyleNode.merge (node.erase "color") node).get? "color" = some (.text "red") ∧
      node.toJson.asMaps = node.toJson := by
  intro json node definition
  obtain ⟨nodes, definitions, updates, merges, maps⟩ := obtained_are_maps
  have read : StyleNode.ofJson json = .ok node := rfl
  have parsed : StyleDefinition.parse node = .ok definition := rfl
  have made : Node node := .ofJson (by decide) read
  have composed : Definition (StyleDefinition.compose [definition, definition]) :=
    .compose (List.forall_mem_cons.mpr
      ⟨.parse made parsed, List.forall_mem_singleton.mpr (.parse made parsed)⟩)
  exact ⟨read, parsed, definitions _ composed, nodes node made,
    (updates node made _ _ (.text "")).2,
    (updates node made _ _ _).1, merges _ _ (made.remove "color") made "color", (maps node made).1⟩

end Obtained

end AtomicCss
