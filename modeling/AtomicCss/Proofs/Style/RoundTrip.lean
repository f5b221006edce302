import AtomicCss.Proofs.Basic
import AtomicCss.Proofs.Json.Reading
import AtomicCss.Style.OfJson

/-!
Style objects are read back from their JSON.

The JSON of a style object that was read is the document with its numbers in binary64 and its
variant flags as texts. Each part of it stands where it stood, so it is read in the same place and
as the same value.
-/

namespace AtomicCss

namespace Json

mutual

/-- The value with every number in binary64 and every boolean as its text. -/
def settled : Json → Json
  | bool value => .text (if value then "true" else "false")
  | whole value => .float (Binary64.ofInt value)
  | array items => .array (settledItems items)
  | object fields => .object (settledFields fields)
  | other => other

def settledItems : List Json → List Json
  | [] => []
  | item :: rest => item.settled :: settledItems rest

def settledFields : List (String × Json) → List (String × Json)
  | [] => []
  | (key, value) :: rest => (key, value.settled) :: settledFields rest

end

end Json

namespace StyleNode

open Json (settledItems settledFields)
open StyleValue (itemsToJson entriesToJson)

/-- What holds of an entry that is read and of the entries behind it holds of them together. -/
theorem settles_cons {Own Entry : Type} {first again : Except StyleError Own}
    {rest rest_again : Except StyleError (List Entry)} {Shown : Own → Prop}
    {AllShown : List Entry → Prop} (entry : Own → Entry)
    (own : ∀ value, first = .ok value → again = .ok value ∧ Shown value)
    (others : ∀ values, rest = .ok values → rest_again = .ok values ∧ AllShown values)
    {all : List Entry}
    (read : (first >>= fun value => rest >>= fun values => .ok (entry value :: values)) = .ok all) :
    (again >>= fun value => rest_again >>= fun values => .ok (entry value :: values)) = .ok all ∧
      ∃ value values, all = entry value :: values ∧ Shown value ∧ AllShown values := by
  obtain ⟨value, read_first, tail⟩ := bind_eq_ok.mp read
  obtain ⟨values, read_rest, last⟩ := bind_eq_ok.mp tail
  obtain ⟨first_again, shown⟩ := own value read_first
  obtain ⟨again_rest, all_shown⟩ := others values read_rest
  rw [first_again, again_rest]
  exact ⟨last, value, values, (Except.ok.inj last).symm, shown, all_shown⟩

mutual

theorem settles_value {place : Place} {path : String} {json : Json} (fits : json.numbersFit = true)
    (value : StyleValue) (read : valueOfJson place path json = .ok value) :
    valueOfJson place path json.settled = .ok value ∧ value.toJson = json.settled := by
  match json with
  | .null => cases read
  | .bool flag =>
    cases place with
    | style => cases read
    | flag =>
      obtain rfl := Except.ok.inj read
      exact ⟨rfl, rfl⟩
  | .text content =>
    obtain rfl := Except.ok.inj read
    exact ⟨rfl, rfl⟩
  | .whole number =>
    obtain rfl := Except.ok.inj read
    exact ⟨rfl, if_pos (Json.isFinite_of_whole fits)⟩
  | .float number =>
    obtain rfl := Except.ok.inj read
    exact ⟨rfl, if_pos fits⟩
  | .array items =>
    obtain ⟨values, read_items, last⟩ := bind_eq_ok.mp read
    obtain rfl := Except.ok.inj last
    obtain ⟨again, shown⟩ := settles_items fits values read_items
    exact ⟨bind_eq_ok.mpr ⟨values, again, rfl⟩, congrArg Json.array shown⟩
  | .object fields =>
    obtain ⟨entries, read_entries, last⟩ := bind_eq_ok.mp read
    obtain rfl := Except.ok.inj last
    obtain ⟨again, shown⟩ := settles_entries fits entries read_entries
    exact ⟨bind_eq_ok.mpr ⟨entries, again, rfl⟩, congrArg Json.object shown⟩

theorem settles_items {place : Place} {path : String} {index : Nat} {items : List Json}
    (fit : Json.itemsFit items = true) (values : List StyleValue)
    (read : itemsOfJson place path index items = .ok values) :
    itemsOfJson place path index (settledItems items) = .ok values ∧
      itemsToJson values = settledItems items := by
  match items with
  | [] =>
    obtain rfl := Except.ok.inj read
    exact ⟨rfl, rfl⟩
  | item :: rest =>
    obtain ⟨own_fits, rest_fit⟩ := Bool.and_eq_true_iff.mp fit
    obtain ⟨again, value, others, rfl, shown, rest_shown⟩ :=
      settles_cons id (settles_value own_fits) (settles_items rest_fit) read
    exact ⟨again, congrArg₂ List.cons shown rest_shown⟩

theorem settles_entries {place : Place} {path : String} {fields : List (String × Json)}
    (fit : Json.fieldsFit fields = true) (entries : StyleNode)
    (read : entriesOfJson place path fields = .ok entries) :
    entriesOfJson place path (settledFields fields) = .ok entries ∧
      entriesToJson entries = settledFields fields := by
  match fields with
  | [] =>
    obtain rfl := Except.ok.inj read
    exact ⟨rfl, rfl⟩
  | (key, field) :: rest =>
    obtain ⟨own_fits, rest_fit⟩ := Bool.and_eq_true_iff.mp fit
    obtain ⟨again, value, others, rfl, shown, rest_shown⟩ :=
      settles_cons (Prod.mk key) (settles_value own_fits) (settles_entries rest_fit) read
    exact ⟨again, congrArg₂ (fun own others => (key, own) :: others) shown rest_shown⟩

end

theorem settles_compoundEntries {path : String} {fields : List (String × Json)}
    (fit : Json.fieldsFit fields = true) (entries : StyleNode)
    (read : compoundEntries path fields = .ok entries) :
    compoundEntries path (settledFields fields) = .ok entries ∧
      entriesToJson entries = settledFields fields := by
  induction fields generalizing entries with
  | nil =>
    obtain rfl := Except.ok.inj read
    exact ⟨rfl, rfl⟩
  | cons field rest ih =>
    obtain ⟨key, field⟩ := field
    obtain ⟨own_fits, rest_fit⟩ := Bool.and_eq_true_iff.mp fit
    obtain ⟨again, value, others, rfl, shown, rest_shown⟩ :=
      settles_cons (Prod.mk key) (settles_value own_fits) (ih rest_fit) read
    exact ⟨again, congrArg₂ (fun own others => (key, own) :: others) shown rest_shown⟩

theorem settles_compoundItems {path : String} {index : Nat} {items : List Json}
    (fit : Json.itemsFit items = true) (values : List StyleValue)
    (read : compoundItems path index items = .ok values) :
    compoundItems path index (settledItems items) = .ok values ∧
      itemsToJson values = settledItems items := by
  induction items generalizing index values with
  | nil =>
    obtain rfl := Except.ok.inj read
    exact ⟨rfl, rfl⟩
  | cons item rest ih =>
    obtain ⟨own_fits, rest_fit⟩ := Bool.and_eq_true_iff.mp fit
    match item with
    | .object fields =>
      obtain ⟨again, compound, others, rfl, shown, rest_shown⟩ :=
        settles_cons StyleValue.node (settles_compoundEntries own_fits) (ih rest_fit) read
      exact ⟨again, congrArg₂ (fun own others => Json.object own :: others) shown rest_shown⟩
    | .null | .bool _ | .whole _ | .float _ | .text _ | .array _ => cases read

theorem rootValue_of_plain {key : String} {value : Json}
    (no_defaults : ∀ flags, key = "defaultVariants" → value = .object flags → False)
    (no_compounds : ∀ items, key = "compoundVariants" → value = .array items → False) :
    rootValue key value = valueOfJson .style key value := by
  unfold rootValue
  split
  · exact (no_defaults _ rfl rfl).elim
  · exact (no_compounds _ rfl rfl).elim
  · rfl

theorem settles_rootValue {key : String} {json : Json} (fits : json.numbersFit = true)
    (value : StyleValue) (read : rootValue key json = .ok value) :
    rootValue key json.settled = .ok value ∧ value.toJson = json.settled := by
  unfold rootValue at read
  split at read
  · next flags =>
    obtain ⟨entries, read_entries, last⟩ := bind_eq_ok.mp read
    obtain rfl := Except.ok.inj last
    obtain ⟨again, shown⟩ := settles_entries fits entries read_entries
    exact ⟨bind_eq_ok.mpr ⟨entries, again, rfl⟩, congrArg Json.object shown⟩
  · next items =>
    obtain ⟨values, read_items, last⟩ := bind_eq_ok.mp read
    obtain rfl := Except.ok.inj last
    obtain ⟨again, shown⟩ := settles_compoundItems fits values read_items
    exact ⟨bind_eq_ok.mpr ⟨values, again, rfl⟩, congrArg Json.array shown⟩
  · next no_defaults no_compounds =>
    obtain ⟨again, shown⟩ := settles_value fits value read
    refine ⟨?_, shown⟩
    rw [rootValue_of_plain, again]
    · intro flags same shape
      cases json with
      | object fields => exact no_defaults fields same rfl
      | _ => cases shape
    · intro items same shape
      cases json with
      | array items => exact no_compounds items same rfl
      | _ => cases shape

theorem settles_rootEntries {fields : List (String × Json)} (fit : Json.fieldsFit fields = true)
    (node : StyleNode) (read : rootEntries fields = .ok node) :
    rootEntries (settledFields fields) = .ok node ∧ entriesToJson node = settledFields fields := by
  induction fields generalizing node with
  | nil =>
    obtain rfl := Except.ok.inj read
    exact ⟨rfl, rfl⟩
  | cons field rest ih =>
    obtain ⟨key, field⟩ := field
    obtain ⟨own_fits, rest_fit⟩ := Bool.and_eq_true_iff.mp fit
    obtain ⟨again, value, others, rfl, shown, rest_shown⟩ :=
      settles_cons (Prod.mk key) (settles_rootValue own_fits) (ih rest_fit) read
    exact ⟨again, congrArg₂ (fun own others => (key, own) :: others) shown rest_shown⟩

theorem settles_ofJson {json : Json} (fits : json.numbersFit = true) {node : StyleNode}
    (read : ofJson json = .ok node) :
    ofJson node.toJson = .ok node ∧ node.toJson = json.settled := by
  match json with
  | .object fields =>
    obtain ⟨again, shown⟩ := settles_rootEntries fits node read
    have same : node.toJson = .object (settledFields fields) := congrArg Json.object shown
    refine ⟨?_, same⟩
    rw [same]
    exact again
  | .null | .bool _ | .whole _ | .float _ | .text _ | .array _ => cases read

/-- A style object is read back from its JSON, which is the value that it was read from, with its
numbers in binary64 and its variant flags as texts. The numbers of any document fit. -/
theorem ofJson_toJson :
    (∀ (json : Json) (node : StyleNode), json.numbersFit = true → ofJson json = .ok node →
      ofJson node.toJson = .ok node ∧ node.toJson = json.settled) ∧
    (∀ (text : String) (node : StyleNode), ofText text = .ok node →
      ofJson node.toJson = .ok node ∧ ∃ json, Json.parse? text = some json ∧
        node.toJson = json.settled) := by
  refine ⟨fun json node fits read => settles_ofJson fits read, fun text node read => ?_⟩
  unfold ofText at read
  split at read
  · next json parsed =>
    obtain ⟨again, shown⟩ := settles_ofJson (Json.isSound_parse? parsed).numbersFit read
    exact ⟨again, json, parsed, shown⟩
  · cases read

theorem flags_as_texts :
    let flags := Json.object [("outlined", .bool true)]
    let compound :=
      Json.object [("outlined", .bool false), ("css", .object [("color", .text "red")])]
    let document :=
      Json.object [("defaultVariants", flags), ("compoundVariants", .array [compound]),
      ("margin", .whole 4)]
    let node : StyleNode := [("defaultVariants", .node [("outlined", .text "true")]),
      ("compoundVariants",
        .list [.node [("outlined", .text "false"), ("css", .node [("color", .text "red")])]]),
      ("margin", .number (.ofInt 4))]
    ofJson document = .ok node ∧ ofJson node.toJson = .ok node ∧ node.toJson = document.settled :=
  ⟨rfl, ofJson_toJson.1 _ _ rfl rfl⟩

end StyleNode

end AtomicCss
