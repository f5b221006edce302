import AtomicCss.Proofs.Basic
import AtomicCss.Proofs.Json.Keys
import AtomicCss.Proofs.Style.Merge
import AtomicCss.Style.OfJson
import AtomicCss.Utility

/-!
What keeps the keys of style objects unique.

Setting looks for the key first; reading JSON, writing it and filling a template look for nothing,
but take over the keys of objects whose keys are unique already, entry by entry and at every depth.
-/

namespace AtomicCss

namespace StyleValue

theorem keysOnce_list {items : List StyleValue} :
    (list items).keysOnce = true ↔ ∀ item ∈ items, item.keysOnce = true := by
  rw [keysOnce]
  induction items with
  | nil => simp [itemsKeysOnce]
  | cons item rest ih => rw [itemsKeysOnce, Bool.and_eq_true, ih, List.forall_mem_cons]

theorem names_entriesToJson (entries : StyleNode) :
    (entriesToJson entries).map (·.1) = entries.map (·.1) := by
  induction entries with
  | nil => rfl
  | cons entry rest ih => rw [entriesToJson, List.map_cons, List.map_cons, ih]

mutual

theorem keysOnce_toJson (value : StyleValue) (once : value.keysOnce = true) :
    value.toJson.keysOnce = true := by
  match value with
  | .text _ => rfl
  | .number value => cases finite : value.isFinite <;> simp [toJson, finite, Json.keysOnce]
  | .list items =>
    rw [keysOnce] at once
    rw [toJson, Json.keysOnce]
    exact keysOnce_itemsToJson items once
  | .node entries =>
    rw [keysOnce, Bool.and_eq_true] at once
    rw [toJson, Json.keysOnce, Bool.and_eq_true, names_entriesToJson]
    exact ⟨once.1, keysOnce_entriesToJson entries once.2⟩

theorem keysOnce_itemsToJson (items : List StyleValue) (once : itemsKeysOnce items = true) :
    Json.itemsKeysOnce (itemsToJson items) = true := by
  match items with
  | [] => rfl
  | item :: rest =>
    rw [itemsKeysOnce, Bool.and_eq_true] at once
    rw [itemsToJson, Json.itemsKeysOnce, Bool.and_eq_true]
    exact ⟨keysOnce_toJson item once.1, keysOnce_itemsToJson rest once.2⟩

theorem keysOnce_entriesToJson (entries : List (String × StyleValue))
    (once : entriesKeysOnce entries = true) :
    Json.fieldsKeysOnce (entriesToJson entries) = true := by
  match entries with
  | [] => rfl
  | (key, value) :: rest =>
    rw [entriesKeysOnce, Bool.and_eq_true] at once
    rw [entriesToJson, Json.fieldsKeysOnce, Bool.and_eq_true]
    exact ⟨keysOnce_toJson value once.1, keysOnce_entriesToJson rest once.2⟩

end

end StyleValue

namespace Utility

open StyleValue (itemsKeysOnce entriesKeysOnce)

theorem names_fillEntries (text : String) (entries : StyleNode) :
    (fillEntries text entries).map (·.1) = entries.map (·.1) := by
  induction entries with
  | nil => rfl
  | cons entry rest ih => rw [fillEntries, List.map_cons, List.map_cons, ih]

mutual

theorem keysOnce_fill (text : String) (value : StyleValue) (once : value.keysOnce = true) :
    (fill text value).keysOnce = true := by
  match value with
  | .text _ => rfl
  | .number _ => rfl
  | .list items =>
    rw [StyleValue.keysOnce] at once
    rw [fill, StyleValue.keysOnce]
    exact keysOnce_fillItems text items once
  | .node entries =>
    rw [StyleValue.keysOnce, Bool.and_eq_true] at once
    rw [fill, StyleValue.keysOnce, Bool.and_eq_true, names_fillEntries]
    exact ⟨once.1, keysOnce_fillEntries text entries once.2⟩

theorem keysOnce_fillItems (text : String) (items : List StyleValue)
    (once : itemsKeysOnce items = true) :
    itemsKeysOnce (fillItems text items) = true := by
  match items with
  | [] => rfl
  | item :: rest =>
    rw [itemsKeysOnce, Bool.and_eq_true] at once
    rw [fillItems, itemsKeysOnce, Bool.and_eq_true]
    exact ⟨keysOnce_fill text item once.1, keysOnce_fillItems text rest once.2⟩

theorem keysOnce_fillEntries (text : String) (entries : List (String × StyleValue))
    (once : entriesKeysOnce entries = true) :
    entriesKeysOnce (fillEntries text entries) = true := by
  match entries with
  | [] => rfl
  | (key, value) :: rest =>
    rw [entriesKeysOnce, Bool.and_eq_true] at once
    rw [fillEntries, entriesKeysOnce, Bool.and_eq_true]
    exact ⟨keysOnce_fill text value once.1, keysOnce_fillEntries text rest once.2⟩

end

end Utility

namespace StyleNode

open StyleValue (itemsKeysOnce entriesKeysOnce keysOnce_node)

theorem keysOnce_set {node : StyleNode} (once : node.keysOnce = true) {value : StyleValue}
    (own : value.keysOnce = true) (key : String) :
    StyleNode.keysOnce (node.set key value) = true := by
  obtain ⟨distinct, each⟩ := keysOnce_node.mp once
  refine keysOnce_node.mpr ⟨Keyed.nodup_set distinct key value, ?_⟩
  intro entry member
  rcases Keyed.mem_set member with old | rfl
  · exact each entry old
  · exact own

theorem keysOnce_erase {node : StyleNode} (once : node.keysOnce = true) (key : String) :
    StyleNode.keysOnce (node.erase key) = true := by
  obtain ⟨distinct, each⟩ := keysOnce_node.mp once
  refine keysOnce_node.mpr ⟨?_, fun entry member => each entry (Keyed.mem_of_mem_erase member)⟩
  rw [← Keyed.names, Keyed.names_erase]
  exact distinct.erase key

theorem keysOnce_expand {body : StyleNode} (once : body.keysOnce = true) (value : StyleValue) :
    StyleNode.keysOnce ((Utility.template body).expand value) = true :=
  Utility.keysOnce_fill (Utility.argument value) (.node body) once

section Reading

variable {read : Except StyleError StyleValue} {walk : Except StyleError StyleNode}
  {names : List String}

/-- A walk over fields takes over their names. -/
theorem keysOnce_walk {key : String} {node : StyleNode}
    (own : ∀ value, read = .ok value → value.keysOnce = true)
    (others : ∀ rest, walk = .ok rest → entriesKeysOnce rest = true ∧ rest.map (·.1) = names)
    (found : (do let value ← read let rest ← walk return (key, value) :: rest) = .ok node) :
    entriesKeysOnce node = true ∧ node.map (·.1) = key :: names := by
  obtain ⟨value, here, found⟩ := bind_eq_ok.mp found
  obtain ⟨rest, there, last⟩ := bind_eq_ok.mp found
  obtain rfl := Except.ok.inj last
  obtain ⟨once, same⟩ := others rest there
  exact ⟨by rw [entriesKeysOnce, own value here, once, Bool.and_self], by rw [List.map_cons, same]⟩

theorem keysOnce_of_names {fields : List (String × Json)} {node : StyleNode}
    (distinct : (fields.map (·.1)).Nodup)
    (taken : entriesKeysOnce node = true ∧ node.map (·.1) = fields.map (·.1)) :
    node.keysOnce = true := by
  rw [StyleNode.keysOnce, StyleValue.keysOnce, Bool.and_eq_true, decide_eq_true_eq, taken.2]
  exact ⟨distinct, taken.1⟩

mutual

theorem keysOnce_valueOfJson {place : Place} {path : String} (json : Json)
    (once : json.keysOnce = true) {value : StyleValue}
    (read : valueOfJson place path json = .ok value) : value.keysOnce = true := by
  match json with
  | .array items =>
    rw [valueOfJson] at read
    obtain ⟨values, found, last⟩ := bind_eq_ok.mp read
    obtain rfl := Except.ok.inj last
    rw [Json.keysOnce] at once
    exact keysOnce_itemsOfJson items once found
  | .object fields =>
    rw [valueOfJson] at read
    obtain ⟨node, found, last⟩ := bind_eq_ok.mp read
    obtain rfl := Except.ok.inj last
    rw [Json.keysOnce, Bool.and_eq_true, decide_eq_true_eq] at once
    exact keysOnce_of_names once.1 (keysOnce_entriesOfJson fields once.2 found)
  | .text _ | .whole _ | .float _ =>
    obtain rfl := Except.ok.inj read
    rfl
  | .bool _ =>
    cases place with
    | flag =>
      obtain rfl := Except.ok.inj read
      rfl
    | style => cases read
  | .null => cases read

theorem keysOnce_itemsOfJson {place : Place} {path : String} {index : Nat} (items : List Json)
    (once : Json.itemsKeysOnce items = true) {values : List StyleValue}
    (read : itemsOfJson place path index items = .ok values) : itemsKeysOnce values = true := by
  match items with
  | [] =>
    obtain rfl := Except.ok.inj read
    rfl
  | item :: rest =>
    rw [Json.itemsKeysOnce, Bool.and_eq_true] at once
    rw [itemsOfJson] at read
    obtain ⟨value, own, found⟩ := bind_eq_ok.mp read
    obtain ⟨others, there, last⟩ := bind_eq_ok.mp found
    obtain rfl := Except.ok.inj last
    rw [itemsKeysOnce, keysOnce_valueOfJson item once.1 own, keysOnce_itemsOfJson rest once.2 there,
      Bool.and_self]

theorem keysOnce_entriesOfJson {place : Place} {path : String} (fields : List (String × Json))
    (once : Json.fieldsKeysOnce fields = true) {node : StyleNode}
    (read : entriesOfJson place path fields = .ok node) :
    entriesKeysOnce node = true ∧ node.map (·.1) = fields.map (·.1) := by
  match fields with
  | [] =>
    obtain rfl := Except.ok.inj read
    exact ⟨rfl, rfl⟩
  | (key, json) :: rest =>
    rw [Json.fieldsKeysOnce, Bool.and_eq_true] at once
    rw [entriesOfJson] at read
    exact keysOnce_walk (fun value => keysOnce_valueOfJson json once.1)
      (fun others => keysOnce_entriesOfJson rest once.2) read

end

theorem keysOnce_compoundEntries {path : String} {fields : List (String × Json)}
    (once : Json.fieldsKeysOnce fields = true) {node : StyleNode}
    (read : compoundEntries path fields = .ok node) :
    entriesKeysOnce node = true ∧ node.map (·.1) = fields.map (·.1) := by
  induction fields generalizing node with
  | nil =>
    obtain rfl := Except.ok.inj read
    exact ⟨rfl, rfl⟩
  | cons field rest ih =>
    rw [Json.fieldsKeysOnce, Bool.and_eq_true] at once
    rw [compoundEntries] at read
    exact keysOnce_walk (fun value => keysOnce_valueOfJson field.2 once.1)
      (fun others => ih once.2) read

theorem keysOnce_compoundItems {path : String} {index : Nat} {items : List Json}
    (once : Json.itemsKeysOnce items = true) {values : List StyleValue}
    (read : compoundItems path index items = .ok values) : itemsKeysOnce values = true := by
  induction items generalizing index values with
  | nil =>
    obtain rfl := Except.ok.inj read
    rfl
  | cons item rest ih =>
    rw [Json.itemsKeysOnce, Bool.and_eq_true] at once
    cases item with
    | object fields =>
      obtain ⟨compound, own, found⟩ := bind_eq_ok.mp read
      obtain ⟨others, there, last⟩ := bind_eq_ok.mp found
      obtain rfl := Except.ok.inj last
      obtain ⟨distinct, each⟩ := Json.keysOnce_object.mp once.1
      have taken := keysOnce_compoundEntries (Json.fieldsKeysOnce_iff.mpr each) own
      rw [itemsKeysOnce, ih once.2 there, Bool.and_true]
      exact keysOnce_of_names distinct taken
    | _ => cases read

theorem keysOnce_rootValue {key : String} {json : Json} (once : json.keysOnce = true)
    {value : StyleValue} (read : rootValue key json = .ok value) : value.keysOnce = true := by
  unfold rootValue at read
  split at read
  · next flags =>
    obtain ⟨node, found, last⟩ := bind_eq_ok.mp read
    obtain rfl := Except.ok.inj last
    obtain ⟨distinct, each⟩ := Json.keysOnce_object.mp once
    exact keysOnce_of_names distinct
      (keysOnce_entriesOfJson flags (Json.fieldsKeysOnce_iff.mpr each) found)
  · next items =>
    obtain ⟨values, found, last⟩ := bind_eq_ok.mp read
    obtain rfl := Except.ok.inj last
    rw [Json.keysOnce] at once
    exact keysOnce_compoundItems once found
  · exact keysOnce_valueOfJson _ once read

theorem keysOnce_rootEntries {fields : List (String × Json)}
    (once : Json.fieldsKeysOnce fields = true) {node : StyleNode}
    (read : rootEntries fields = .ok node) :
    entriesKeysOnce node = true ∧ node.map (·.1) = fields.map (·.1) := by
  induction fields generalizing node with
  | nil =>
    obtain rfl := Except.ok.inj read
    exact ⟨rfl, rfl⟩
  | cons field rest ih =>
    rw [Json.fieldsKeysOnce, Bool.and_eq_true] at once
    rw [rootEntries] at read
    exact keysOnce_walk (fun value => keysOnce_rootValue once.1) (fun others => ih once.2) read

theorem keysOnce_ofJson {json : Json} (once : json.keysOnce = true) {node : StyleNode}
    (read : ofJson json = .ok node) : node.keysOnce = true := by
  cases json with
  | object fields =>
    obtain ⟨distinct, each⟩ := Json.keysOnce_object.mp once
    exact keysOnce_of_names distinct (keysOnce_rootEntries (Json.fieldsKeysOnce_iff.mpr each) read)
  | _ => cases read

end Reading

end StyleNode

end AtomicCss
