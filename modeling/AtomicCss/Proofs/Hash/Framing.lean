import AtomicCss.Engine.Basic
import AtomicCss.Proofs.Sheet.Index
import Mathlib.Algebra.Group.Nat.Defs

/-!
What is hashed can be told apart.

Every part of a frame stands behind its length, which takes eight bytes, so a frame is read back
part by part and ends with the last one. The parts of a declaration have no such lengths: it is the
bar that ends the at-rules, since no at-rule looks like it. And every declaration that comes of a
style object is of that kind.
-/

namespace AtomicCss

namespace Hash

open Text (utf8)

theorem length_littleEndian (count value : Nat) : (littleEndian count value).length = count := by
  induction count generalizing value with
  | zero => rfl
  | succ count ih => rw [littleEndian, List.length_cons, ih]

theorem littleEndian_injective {count first second : Nat} (left : first < 256 ^ count)
    (right : second < 256 ^ count) (same : littleEndian count first = littleEndian count second) :
    first = second := by
  induction count generalizing first second with
  | zero => omega
  | succ count ih =>
    obtain ⟨byte, rest⟩ := List.cons.inj same
    have low : first % 256 = second % 256 := congrArg UInt8.toNat byte
    have high : first / 256 = second / 256 := by
      apply ih _ _ rest
      · rw [Nat.pow_succ] at left
        omega
      · rw [Nat.pow_succ] at right
        omega
    omega

/-- A part whose length in bytes can be written in front of it. -/
def IsPart (part : String) : Prop := (utf8 part).length < 2 ^ 64

/-- A framed part ends where its length says, whatever follows it. -/
theorem framePart_append_injective {first second : String} (left : IsPart first)
    (right : IsPart second) {rest others : List UInt8}
    (same : framePart first ++ rest = framePart second ++ others) :
    first = second ∧ rest = others := by
  simp only [framePart, List.append_assoc] at same
  obtain ⟨written, tail⟩ := List.append_inj same (by simp only [length_littleEndian])
  have lengths : (utf8 first).length = (utf8 second).length :=
    littleEndian_injective left right written
  obtain ⟨bytes, after⟩ := List.append_inj tail lengths
  exact ⟨Text.utf8_injective bytes, after⟩

theorem framePart_ne_nil (part : String) : framePart part ≠ [] := by
  intro nothing
  have short := congrArg List.length nothing
  simp [framePart, length_littleEndian] at short

theorem frame_injective {parts others : List String} (left : ∀ part ∈ parts, IsPart part)
    (right : ∀ part ∈ others, IsPart part) (same : frame parts = frame others) :
    parts = others := by
  have framed : parts.flatMap framePart = others.flatMap framePart := List.append_cancel_left same
  clear same
  induction parts generalizing others with
  | nil =>
    cases others with
    | nil => rfl
    | cons other others => simp [framePart_ne_nil] at framed
  | cons part parts ih =>
    cases others with
    | nil => simp [framePart_ne_nil] at framed
    | cons other others =>
      obtain ⟨own, own_rest⟩ := List.forall_mem_cons.mp left
      obtain ⟨their, their_rest⟩ := List.forall_mem_cons.mp right
      rw [List.flatMap_cons, List.flatMap_cons] at framed
      obtain ⟨rfl, rest⟩ := framePart_append_injective own their framed
      rw [ih own_rest their_rest rest]

end Hash

namespace AtomicDeclaration

theorem parts_ne_textParts {declaration : AtomicDeclaration} (marked : declaration.Marked)
    (group : SheetGroup) (css : String) : declaration.parts ≠ Engine.textParts group css := by
  apply parts_ne_cons marked _ (by decide)
  rintro ⟨rest, starts⟩
  cases starts

/-- What is hashed tells apart what it is hashed for: lists of parts by their frames, declarations
by their parts, and declarations from texts of the sheet. That takes at-rules that start as at-rules
do, as those of every style object and mode are. -/
theorem hashed_apart :
    (∀ parts others : List String, (∀ part ∈ parts, Hash.IsPart part) →
      (∀ part ∈ others, Hash.IsPart part) →
        parts ≠ others → Hash.frame parts ≠ Hash.frame others) ∧
      (∀ first second : AtomicDeclaration, first.Marked → second.Marked →
        first ≠ second → first.parts ≠ second.parts) ∧
      (∀ (vocabulary : Vocabulary) (mode : FlattenMode) (node : StyleNode) (rules : List FlatRule),
        flatten vocabulary mode node = .ok rules → ∀ declaration ∈ collapse rules,
          declaration.Marked) ∧
      ∀ declaration : AtomicDeclaration, declaration.Marked → ∀ (group : SheetGroup) (css : String),
        declaration.parts ≠ Engine.textParts group css := by
  refine ⟨?_, ?_, ?_, fun declaration marked => parts_ne_textParts marked⟩
  · intro parts others left right different same
    exact different (Hash.frame_injective left right same)
  · intro first second left right different same
    exact different (parts_injective left right same)
  · intro vocabulary mode node rules flat declaration member
    exact marked_of_mem_collapse flat member

/-- Parts that are cut at another place, a declaration in a breakpoint and the same without its
fallback, and a text of the sheet. -/
theorem hashed_apart_of_fallback :
    let vocabulary : Vocabulary :=
      ⟨⟨⟨"", "", ":root", .empty, []⟩, .empty, ""⟩, .empty, [("wide", "(min-width: 1px)")]⟩
    let node : StyleNode := [("@wide", .node [("display", .list [.text "block", .text "grid"])])]
    let rules : List FlatRule := [⟨["@media (min-width: 1px)"], "&", "display", "block", 0, 1⟩,
      ⟨["@media (min-width: 1px)"], "&", "display", "grid", 0, 1⟩]
    let declaration : AtomicDeclaration :=
      ⟨["@media (min-width: 1px)"], "&", "display", ["block", "grid"]⟩
    let other : AtomicDeclaration := { declaration with values := ["grid"] }
    flatten vocabulary .scoped node = .ok rules ∧ collapse rules = [declaration] ∧
      declaration.Marked ∧
      other.Marked ∧ declaration.parts ≠ other.parts ∧
      declaration.parts ≠ Engine.textParts .global "a" ∧
      Hash.IsPart "ab" ∧ Hash.IsPart "c" ∧ Hash.IsPart "a" ∧ Hash.IsPart "bc" ∧
      Hash.frame ["ab", "c"] ≠ Hash.frame ["a", "bc"] := by
  intro vocabulary node rules declaration other
  obtain ⟨frames, declarations, marked, texts⟩ := hashed_apart
  have flat : flatten vocabulary .scoped node = .ok rules := by decide +kernel
  have collapsed : collapse rules = [declaration] := by decide
  have own : declaration.Marked := marked _ _ _ _ flat declaration (by simp [collapsed])
  have fits : ∀ part ∈ ["ab", "c", "a", "bc"], Hash.IsPart part := by
    simp only [Hash.IsPart]
    decide +kernel
  simp only [List.forall_mem_cons] at fits
  refine ⟨flat, collapsed, own, own, declarations declaration other own own (by decide),
    texts declaration own _ _,
    fits.1, fits.2.1, fits.2.2.1, fits.2.2.2.1, frames _ _ ?_ ?_ (by decide)⟩
  · simp [fits]
  · simp [fits]

end AtomicDeclaration

end AtomicCss
