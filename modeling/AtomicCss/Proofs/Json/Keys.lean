import AtomicCss.Engine.Component
import AtomicCss.Proofs.Variant.Selection

/-!
JSON values that hold each key once.

Such are the values that documents are read into. So the selection that props ask for names no
breakpoint twice.
-/

namespace AtomicCss

namespace Json

mutual

/-- Whether every object in the value holds each of its keys once. -/
def keysOnce : Json → Bool
  | array items => itemsKeysOnce items
  | object fields => decide (fields.map (·.1)).Nodup && fieldsKeysOnce fields
  | _ => true

def itemsKeysOnce : List Json → Bool
  | [] => true
  | item :: rest => item.keysOnce && itemsKeysOnce rest

def fieldsKeysOnce : List (String × Json) → Bool
  | [] => true
  | (_, value) :: rest => value.keysOnce && fieldsKeysOnce rest

end

theorem keysOnce_array {items : List Json} :
    (array items).keysOnce = true ↔ ∀ item ∈ items, item.keysOnce = true := by
  rw [keysOnce]
  induction items with
  | nil => simp [itemsKeysOnce]
  | cons item rest ih => rw [itemsKeysOnce, Bool.and_eq_true, ih, List.forall_mem_cons]

theorem fieldsKeysOnce_iff {fields : Keyed Json} :
    fieldsKeysOnce fields = true ↔ ∀ field ∈ fields, field.2.keysOnce = true := by
  induction fields with
  | nil => simp [fieldsKeysOnce]
  | cons field rest ih => rw [fieldsKeysOnce, Bool.and_eq_true, ih, List.forall_mem_cons]

theorem keysOnce_object {fields : Keyed Json} :
    (object fields).keysOnce = true ↔
      (fields.map (·.1)).Nodup ∧ ∀ field ∈ fields, field.2.keysOnce = true := by
  rw [keysOnce, Bool.and_eq_true, decide_eq_true_eq, fieldsKeysOnce_iff]

end Json

namespace VariantValue

theorem names_branchesOfJson {path : String} {fields : Keyed Json}
    {branches : List (String × String)} (read : branchesOfJson path fields = .ok branches) :
    branches.map (·.1) = fields.map (·.1) := by
  induction fields generalizing branches with
  | nil =>
    obtain rfl := Except.ok.inj read
    rfl
  | cons field rest ih =>
    rw [branchesOfJson] at read
    split at read
    · cases read
    · obtain ⟨others, read_rest, last⟩ := bind_eq_ok.mp read
      obtain rfl := Except.ok.inj last
      rw [List.map_cons, List.map_cons, ih read_rest]

theorem nodup_ofJson {path : String} {json : Json} {branches : List (String × String)}
    (once : json.keysOnce = true) (read : ofJson path json = .ok (.responsive branches)) :
    (branches.map (·.1)).Nodup := by
  unfold ofJson at read
  split at read
  · obtain ⟨others, read_fields, last⟩ := bind_eq_ok.mp read
    cases last
    rw [names_branchesOfJson read_fields]
    exact (Json.keysOnce_object.mp once).1
  · split at read <;> cases read

end VariantValue

namespace Component

theorem namesOnce_add {definition : StyleDefinition} {reading next : Reading} {key : String}
    {value : Json} (once : value.keysOnce = true) (before : reading.selection.NamesOnce)
    (read : reading.add definition key value = .ok next) : next.selection.NamesOnce := by
  unfold Reading.add at read
  split at read
  · split at read <;> cases read
    exact before
  · obtain ⟨override, -, last⟩ := bind_eq_ok.mp read
    cases last
    exact before
  · split at read <;> cases read
    exact before
  · split at read
    · obtain ⟨chosen, own, last⟩ := bind_eq_ok.mp read
      cases last
      intro group branches member
      rcases Keyed.mem_set member with earlier | new
      · exact before group branches earlier
      · cases new
        exact VariantValue.nodup_ofJson once own
    · cases read
      exact before

theorem namesOnce_read {component : Component} {props : Keyed Json} {reading : Reading}
    (once : ∀ prop ∈ props, prop.2.keysOnce = true) (read : component.read props = .ok reading) :
    reading.selection.NamesOnce := by
  refine foldlM_keeps (fun reading => reading.selection.NamesOnce) ?_ ?_ read
  · intro reading before prop member next added
    exact namesOnce_add (once prop member) before added
  · intro group branches member
    cases member

end Component

end AtomicCss
