import AtomicCss.Text.Blank

/-!
The pieces of a text between its separators.
-/

namespace AtomicCss.Text.Chars

theorem split_ne_nil (separator : Char → Bool) (cs : List Char) : split separator cs ≠ [] := by
  cases cs with
  | nil => simp [split]
  | cons c rest =>
    unfold split
    split
    · simp
    · split <;> simp

theorem split_append_cons {separator : Char → Bool} {c : Char} (separates : separator c = true)
    (front back : List Char) :
    split separator (front ++ c :: back) = split separator front ++ split separator back := by
  induction front with
  | nil => simp [split, separates]
  | cons d front ih =>
    simp only [List.cons_append, split, ih]
    split
    · rfl
    · cases pieces : split separator front with
      | nil => exact absurd pieces (split_ne_nil separator front)
      | cons piece others => rfl

theorem split_of_none {separator : Char → Bool} {cs : List Char}
    (none : ∀ c ∈ cs, separator c = false) :
    split separator cs = [cs] := by
  induction cs with
  | nil => rfl
  | cons c rest ih =>
    obtain ⟨own, others⟩ := List.forall_mem_cons.mp none
    simp [split, own, ih others]

end AtomicCss.Text.Chars
