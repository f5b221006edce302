import AtomicCss.Files.Path
import AtomicCss.Proofs.Text.Splitting
import Mathlib.Data.List.Induction

/-!
Pieces and components of paths.

The components of a path are its pieces that lead somewhere, behind the root if the path is
absolute. Sorting keeps every path in one of the spellings that have its components.
-/

namespace AtomicCss

namespace Path

theorem pieces_slash (front back : String) :
    pieces ⟨front ++ "/" ++ back⟩ = pieces ⟨front⟩ ++ pieces ⟨back⟩ := by
  have chars : (front ++ "/" ++ back).toList = front.toList ++ '/' :: back.toList := by simp
  rw [pieces, chars, Text.Chars.split_append_cons (by decide), List.map_append]
  rfl

theorem pieces_of_name {name : String} (whole : '/' ∉ name.toList) : pieces ⟨name⟩ = [name] := by
  rw [pieces, Text.Chars.split_of_none, List.map_singleton, String.ofList_toList]
  intro c member
  exact beq_false_of_ne (ne_of_mem_of_not_mem member whole)

theorem isAbsolute_append {front : String} (shown : front ≠ "") (back : String) :
    isAbsolute ⟨front ++ back⟩ = isAbsolute ⟨front⟩ := by
  cases chars : front.toList with
  | nil => exact absurd (String.toList_eq_nil_iff.mp chars) shown
  | cons c rest => simp [isAbsolute, Text.hasPrefix, chars, List.isPrefixOf]

theorem join_eq {text : String} (shown : text ≠ "") (name : String) :
    Path.join ⟨text⟩ name = ⟨text ++ "/" ++ name⟩ ∨
      ∃ front, text = front ++ "/" ∧ Path.join ⟨text⟩ name = ⟨front ++ "/" ++ name⟩ := by
  cases closed : Text.hasSuffix "/" text with
  | false =>
    left
    simp [join, shown, closed]
  | true =>
    right
    obtain ⟨front, whole⟩ := List.isSuffixOf_iff_suffix.mp closed
    have split : text = String.ofList front ++ "/" := by
      apply String.toList_inj.mp
      rw [← whole]
      simp
    exact ⟨String.ofList front, split, by simp [join, closed, ← split]⟩

namespace Component

/-- The piece that the component stands for, if it leads somewhere. -/
def piece? : Component → Option String
  | root | current => none
  | parent => some ".."
  | name text => some text

theorem piece?_ofPiece (piece : String) :
    (ofPiece piece).piece? = if piece = "." then none else some piece := by
  unfold ofPiece
  split <;> simp_all [piece?]

theorem ofPiece_ne_root (piece : String) : ofPiece piece ≠ root := by
  unfold ofPiece
  split <;> simp

end Component

theorem isStep_iff {piece : String} : isStep piece = true ↔ piece ≠ "" ∧ piece ≠ "." := by
  simp [isStep]

theorem filterMap_ofPiece (pieces : List String) :
    ((pieces.filter isStep).map Component.ofPiece).filterMap Component.piece? =
      pieces.filter isStep := by
  induction pieces with
  | nil => rfl
  | cons piece rest ih =>
    by_cases step : isStep piece = true
    · have kept : (Component.ofPiece piece).piece? = some piece := by
        rw [Component.piece?_ofPiece, if_neg (isStep_iff.mp step).2]
      rw [List.filter_cons_of_pos step, List.map_cons, List.filterMap_cons_some kept, ih]
    · rw [List.filter_cons_of_neg step, ih]

/-- The components of a path are its pieces that lead somewhere. -/
theorem filterMap_components (path : Path) :
    path.components.filterMap Component.piece? = path.pieces.filter isStep := by
  unfold components
  split
  · next pieces => simp [pieces]
  · next first rest pieces =>
    rw [List.filterMap_append, filterMap_ofPiece, pieces, List.filter_cons]
    unfold firstComponent?
    by_cases idle : first = ""
    · cases path.isAbsolute <;> simp [idle, isStep, Component.piece?]
    · by_cases here : first = "."
      · simp [here, isStep, Component.piece?_ofPiece]
      · simp [idle, here, isStep, Component.piece?_ofPiece]

theorem isAbsolute_eq (path : Path) : path.isAbsolute = (path.components.head? == some .root) := by
  have below (pieces : List String) :
      ((pieces.filter isStep).map Component.ofPiece).head? ≠ some Component.root := by
    cases pieces.filter isStep <;> simp [Component.ofPiece_ne_root]
  cases absolute : path.isAbsolute with
  | true =>
    obtain ⟨rest, starts⟩ := List.isPrefixOf_iff_prefix.mp absolute
    have pieces : path.pieces = "" :: (Text.Chars.split (· == '/') rest).map String.ofList := by
      rw [Path.pieces, ← starts]
      simp [Text.Chars.split]
    simp [components, pieces, firstComponent?, absolute]
  | false =>
    unfold components
    split
    · rfl
    · next first rest pieces =>
      unfold firstComponent?
      by_cases idle : first = ""
      · simpa [idle, absolute] using below rest
      · simp [idle, Component.ofPiece_ne_root]

theorem same_iff {first second : Path} :
    first.same second = true ↔ first.components = second.components := by
  simp [same]

section Sorting

variable {path other : Path} {paths : List Path}

theorem mem_insert (member : other ∈ path.insert paths) : other = path ∨ other ∈ paths := by
  induction paths with
  | nil => exact .inl (List.mem_singleton.mp member)
  | cons first rest ih =>
    rw [insert] at member
    split at member
    · exact .inr member
    · split at member
      · exact List.mem_cons.mp member
      · rcases List.mem_cons.mp member with rfl | later
        · exact .inr List.mem_cons_self
        · exact (ih later).imp_right (List.mem_cons_of_mem _)

theorem mem_insert_of_mem (member : other ∈ paths) : other ∈ path.insert paths := by
  induction paths with
  | nil => cases member
  | cons first rest ih =>
    rw [insert]
    split
    · exact member
    · split
      · exact List.mem_cons_of_mem _ member
      · rcases List.mem_cons.mp member with rfl | later
        · exact List.mem_cons_self
        · exact List.mem_cons_of_mem _ (ih later)

theorem exists_mem_insert (path : Path) (paths : List Path) :
    ∃ other ∈ path.insert paths, other.components = path.components := by
  induction paths with
  | nil => exact ⟨path, List.mem_cons_self, rfl⟩
  | cons first rest ih =>
    rw [insert]
    split
    · next same => exact ⟨first, List.mem_cons_self, (same_iff.mp same).symm⟩
    · split
      · exact ⟨path, List.mem_cons_self, rfl⟩
      · obtain ⟨other, member, same⟩ := ih
        exact ⟨other, List.mem_cons_of_mem _ member, same⟩

theorem sort_concat (paths : List Path) (path : Path) :
    sort (paths ++ [path]) = path.insert (sort paths) := by
  simp [sort]

theorem mem_sort (member : path ∈ sort paths) : path ∈ paths := by
  induction paths using List.reverseRecOn with
  | nil => cases member
  | append_singleton front last ih =>
    rw [sort_concat] at member
    rcases mem_insert member with rfl | before
    · exact List.mem_append_right _ List.mem_cons_self
    · exact List.mem_append_left _ (ih before)

/-- Every path comes out of sorting in one of its spellings. -/
theorem exists_mem_sort (member : path ∈ paths) :
    ∃ other ∈ sort paths, other.components = path.components := by
  induction paths using List.reverseRecOn with
  | nil => cases member
  | append_singleton front last ih =>
    rw [sort_concat]
    rcases List.mem_append.mp member with before | here
    · obtain ⟨other, inside, same⟩ := ih before
      exact ⟨other, mem_insert_of_mem inside, same⟩
    · rw [List.mem_singleton.mp here]
      exact exists_mem_insert last (sort front)

end Sorting

end Path

end AtomicCss
