import AtomicCss.Style.Basic
import Mathlib.Data.List.Nodup

/-!
Style objects that hold each key once.

Entries of a style object are set and replaced by key, so no object holds a key twice, at whatever
depth.
-/

namespace AtomicCss

namespace StyleValue

mutual

/-- Whether every object in the value holds each of its keys once. -/
def keysOnce : StyleValue → Bool
  | text _ | number _ => true
  | list items => itemsKeysOnce items
  | node entries => decide (entries.map (·.1)).Nodup && entriesKeysOnce entries

def itemsKeysOnce : List StyleValue → Bool
  | [] => true
  | item :: rest => item.keysOnce && itemsKeysOnce rest

def entriesKeysOnce : List (String × StyleValue) → Bool
  | [] => true
  | (_, value) :: rest => value.keysOnce && entriesKeysOnce rest

end

theorem entriesKeysOnce_iff {entries : List (String × StyleValue)} :
    entriesKeysOnce entries = true ↔ ∀ entry ∈ entries, entry.2.keysOnce = true := by
  induction entries with
  | nil => simp [entriesKeysOnce]
  | cons entry rest ih => rw [entriesKeysOnce, Bool.and_eq_true, ih, List.forall_mem_cons]

theorem keysOnce_node {entries : StyleNode} :
    (node entries).keysOnce = true ↔
      (entries.map (·.1)).Nodup ∧ ∀ entry ∈ entries, entry.2.keysOnce = true := by
  rw [keysOnce, Bool.and_eq_true, decide_eq_true_eq, entriesKeysOnce_iff]

end StyleValue

def StyleNode.keysOnce (node : StyleNode) : Bool := (StyleValue.node node).keysOnce

end AtomicCss
