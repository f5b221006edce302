import AtomicCss.Proofs.Json.Keys

/-!
The numbers that JSON values hold.

A whole number fits 64 bits, signed or unsigned, and any other number is finite. So each has a
finite binary64 value. Such are the values that documents are read into.
-/

namespace AtomicCss

namespace Binary64

theorem isFinite_normalize {exponent : Int} (small : exponent < maxExponent) (negative : Bool)
    (significand : Nat) : (normalize negative significand exponent).isFinite = true := by
  unfold normalize
  by_cases carries : significand = Nat.pow 2 53
  · simp only [carries, if_true]
    rw [if_neg (by omega)]
    rfl
  · simp only [carries, if_false]
    rw [if_neg (by omega)]
    rfl

theorem isFinite_ofRatio {num den : Nat} (small : unitExponent num den + 1 < maxExponent)
    (negative : Bool) :
    (ofRatio negative num den).isFinite = true := by
  unfold ofRatio
  dsimp only
  split
  · exact isFinite_normalize (by omega) negative _
  · exact isFinite_normalize small negative _

theorem isFinite_ofInt {value : Int} (fits : value.natAbs ≤ UInt64.size) :
    (ofInt value).isFinite = true := by
  apply isFinite_ofRatio
  have log : value.natAbs.log2 < 65 := by
    by_cases zero : value.natAbs = 0
    · rw [zero]
      decide
    · rw [Nat.log2_lt zero]
      exact Nat.lt_of_le_of_lt fits (by decide)
  have unit : Nat.log2 1 = 0 := by decide
  simp only [unitExponent, minExponent, maxExponent, unit]
  omega

end Binary64

namespace Json

mutual

/-- Whether every whole number in the value fits 64 bits, and every other number is finite. -/
def numbersFit : Json → Bool
  | whole value => decide (-(Nat.pow 2 63 : Int) ≤ value) && decide (value < UInt64.size)
  | float value => value.isFinite
  | array items => itemsFit items
  | object fields => fieldsFit fields
  | _ => true

def itemsFit : List Json → Bool
  | [] => true
  | item :: rest => item.numbersFit && itemsFit rest

def fieldsFit : List (String × Json) → Bool
  | [] => true
  | (_, value) :: rest => value.numbersFit && fieldsFit rest

end

theorem numbersFit_array {items : List Json} :
    (array items).numbersFit = true ↔ ∀ item ∈ items, item.numbersFit = true := by
  rw [numbersFit]
  induction items with
  | nil => simp [itemsFit]
  | cons item rest ih => rw [itemsFit, Bool.and_eq_true, ih, List.forall_mem_cons]

theorem numbersFit_object {fields : Keyed Json} :
    (object fields).numbersFit = true ↔ ∀ field ∈ fields, field.2.numbersFit = true := by
  rw [numbersFit]
  induction fields with
  | nil => simp [fieldsFit]
  | cons field rest ih => rw [fieldsFit, Bool.and_eq_true, ih, List.forall_mem_cons]

theorem isFinite_of_whole {value : Int} (fits : (whole value).numbersFit = true) :
    (Binary64.ofInt value).isFinite = true := by
  simp only [numbersFit, Nat.pow_eq, UInt64.size, Bool.and_eq_true, decide_eq_true_eq] at fits
  apply Binary64.isFinite_ofInt
  rw [UInt64.size]
  omega

/-- A value as documents hold it. -/
structure IsSound (json : Json) : Prop where
  keysOnce : json.keysOnce = true
  numbersFit : json.numbersFit = true

theorem isSound_array {items : List Json} (each : ∀ item ∈ items, item.IsSound) :
    (array items).IsSound :=
  ⟨keysOnce_array.mpr fun item member => (each item member).keysOnce,
    numbersFit_array.mpr fun item member => (each item member).numbersFit⟩

theorem isSound_object {fields : Keyed Json} (distinct : (fields.map (·.1)).Nodup)
    (each : ∀ field ∈ fields, field.2.IsSound) : (object fields).IsSound :=
  ⟨keysOnce_object.mpr ⟨distinct, fun field member => (each field member).keysOnce⟩,
    numbersFit_object.mpr fun field member => (each field member).numbersFit⟩

end Json

end AtomicCss
