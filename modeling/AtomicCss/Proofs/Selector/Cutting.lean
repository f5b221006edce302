import AtomicCss.Proofs.Selector.Writing
import Mathlib.Data.List.Induction

/-!
Where a key with strings is cut.

A key should be cut at the commas outside of strings and brackets. Its text is cut at the commas
outside of the brackets that it has anywhere. The two cuts are the same just if they come to the
same selectors: a string that is cut lacks a quote, and a comma that cuts one way only shows behind
the last string before it.
-/

namespace AtomicCss.Selector

open Text.Chars

theorem cut_cons (depth : Nat) (c : Char) (cs : List Char) : cut depth (c :: cs) =
    if c = ',' ∧ depth = 0 then [] :: cut depth cs
    else (cut (depthAfter depth c) cs).modifyHead (c :: ·) := by
  rw [cut]
  split
  · rfl
  · obtain ⟨piece, pieces, cuts, -⟩ := whole_cut (depthAfter depth c) cs
    rw [cuts]
    rfl

theorem cut_append_of_whole {depth : Nat} {front : List Char} (whole : Whole depth front)
    (back : List Char) :
    cut depth (front ++ back) = (cut (depthFrom depth front) back).modifyHead (front ++ ·) := by
  obtain ⟨piece, pieces, behind, cuts⟩ := cut_append whole back
  rw [cuts, behind]
  rfl

/-- A text that is not whole is cut at one of its commas first. -/
theorem exists_cut_of_not_whole {depth : Nat} {front : List Char} (cuts : ¬ Whole depth front)
    (back : List Char) : ∃ before after pieces, front = before ++ ',' :: after ∧
      cut depth (front ++ back) = before :: pieces := by
  induction front generalizing depth with
  | nil => exact absurd trivial cuts
  | cons c rest ih =>
    by_cases comma : c = ',' ∧ depth = 0
    · refine ⟨[], rest, cut depth (rest ++ back), by rw [comma.1]; rfl, ?_⟩
      rw [List.cons_append, cut_cons, if_pos comma]
    · have below : ¬ Whole (depthAfter depth c) rest :=
        fun whole => cuts ⟨fun named outside => comma ⟨named, outside⟩, whole⟩
      obtain ⟨before, after, pieces, rfl, split⟩ := ih below
      refine ⟨c :: before, after, pieces, rfl, ?_⟩
      rw [List.cons_append, cut_cons, if_neg comma, split]
      rfl

namespace Fragment

/-- The brackets that are open behind a fragment; those in strings do not count. -/
def depthAfter (depth : Nat) : Fragment → Nat
  | plain c => Selector.depthAfter depth c
  | string _ => depth

/-- The pieces between the commas outside of strings and of brackets. -/
def cut (depth : Nat) : List Fragment → List (List Fragment)
  | [] => [[]]
  | fragment :: rest =>
    if fragment = plain ',' ∧ depth = 0 then [] :: cut depth rest
    else (cut (depthAfter depth fragment) rest).modifyHead (fragment :: ·)

def parts (key : List Fragment) : List (List Fragment) :=
  (cut 0 key).filter fun part => !part.all isGap

/-- Each comma cuts the text of a key just if it stands outside of strings and brackets. The text is
read inside of `depth` brackets, of which `outside` are not in strings. -/
def CutsAlike : (depth outside : Nat) → List Fragment → Prop
  | _, _, [] => True
  | depth, outside, plain c :: rest =>
    (c = ',' → (depth = 0 ↔ outside = 0)) ∧
      CutsAlike (Selector.depthAfter depth c) (Selector.depthAfter outside c) rest
  | depth, outside, string content :: rest =>
    Whole depth content ∧ CutsAlike (depthFrom depth content) outside rest

theorem map_textOf_modifyHead (fragment : Fragment) (pieces : List (List Fragment)) :
    (pieces.modifyHead (fragment :: ·)).map textOf = (pieces.map textOf).modifyHead
      (fragment.text ++ ·) := by
  cases pieces <;> rfl

theorem cut_textOf {depth outside : Nat} {key : List Fragment}
    (alike : CutsAlike depth outside key) :
    Selector.cut depth (textOf key) = (cut outside key).map textOf := by
  induction key generalizing depth outside with
  | nil => rfl
  | cons fragment rest ih =>
    cases fragment with
    | plain c =>
      obtain ⟨level, below⟩ := alike
      change Selector.cut depth (c :: textOf rest) = _
      rw [cut_cons, cut]
      by_cases comma : c = ',' ∧ depth = 0
      · obtain ⟨rfl, rfl⟩ := comma
        obtain rfl := (level rfl).mp rfl
        have cuts : Selector.cut 0 (textOf rest) = (cut 0 rest).map textOf := ih below
        simp only [and_self, if_true, List.map_cons, cuts]
        rfl
      · have uncut : ¬ (plain c = plain ',' ∧ outside = 0) := by
          rintro ⟨named, bare⟩
          have named := plain.inj named
          exact comma ⟨named, (level named).mpr bare⟩
        rw [if_neg comma, if_neg uncut, map_textOf_modifyHead, ih below]
        rfl
    | string content =>
      obtain ⟨whole, below⟩ := alike
      have uncut : ¬ (string content = plain ',' ∧ outside = 0) := by simp
      rw [textOf_cons, text, cut_append_of_whole whole, cut, if_neg uncut,
        map_textOf_modifyHead, ih below]
      rfl

theorem cut_ne_nil (depth : Nat) (key : List Fragment) : cut depth key ≠ [] := by
  induction key generalizing depth with
  | nil => simp [cut]
  | cons fragment rest ih =>
    rw [cut]
    split
    · simp
    · rw [ne_eq, List.modifyHead_eq_nil_iff]
      exact ih _

theorem mem_of_mem_cut {depth : Nat} {key part : List Fragment} (member : part ∈ cut depth key)
    {fragment : Fragment} (inside : fragment ∈ part) : fragment ∈ key := by
  induction key generalizing depth part with
  | nil =>
    obtain rfl := List.mem_singleton.mp member
    cases inside
  | cons first rest ih =>
    rw [cut] at member
    split at member
    · rcases List.mem_cons.mp member with rfl | later
      · cases inside
      · exact List.mem_cons_of_mem _ (ih later inside)
    · obtain ⟨piece, pieces, cuts⟩ :=
        List.exists_cons_of_ne_nil (cut_ne_nil (depthAfter depth first) rest)
      rw [cuts, List.modifyHead_cons] at member
      have below (other : List Fragment) (listed : other ∈ piece :: pieces)
          (within : fragment ∈ other) :
          fragment ∈ first :: rest := List.mem_cons_of_mem _ (ih (cuts ▸ listed) within)
      rcases List.mem_cons.mp member with rfl | later
      · rcases List.mem_cons.mp inside with rfl | within
        · exact List.mem_cons_self
        · exact below piece List.mem_cons_self within
      · exact below part (List.mem_cons_of_mem _ later) inside

section Comparison

variable {owning piece : List Char} {part : List Fragment}

/-- A piece of the text of a key and a part of the key come to the same below an owner, but for
blanks and for what stands in front. -/
def Alike (owning piece : List Char) (part : List Fragment) : Prop :=
  ∃ front other, Unquoted front ∧ Unquoted other ∧
    front ++ ink (replaceChar owner owning piece) = other ++ ink (textOf (fill owning part))

theorem quotes_fill (unquoted : Unquoted owning) (part : List Fragment) :
    quotes (textOf (fill owning part)) = quotes (textOf part) := by
  induction part with
  | nil => rfl
  | cons fragment rest ih =>
    rw [fill_cons, textOf_append, textOf_cons, quotes_append, quotes_append, ih]
    split
    · next named =>
      rw [textOf_map_plain, quotes_eq_zero unquoted, named]
      rfl
    · simp

theorem Alike.quotes_eq (unquoted : Unquoted owning) (alike : Alike owning piece part) :
    quotes piece = quotes (textOf part) := by
  obtain ⟨front, other, bare, other_bare, same⟩ := alike
  have counted := congrArg quotes same
  rwa [quotes_append, quotes_append, quotes_eq_zero bare, quotes_eq_zero other_bare,
    quotes_ink, quotes_ink,
    quotes_replaceChar unquoted, quotes_fill unquoted, Nat.zero_add, Nat.zero_add] at counted

theorem EndsQuoted.ink {text : List Char} (ends : EndsQuoted text) :
    EndsQuoted (Text.Chars.ink text) := by
  obtain ⟨front, quote, mark, rfl⟩ := ends
  exact ⟨Text.Chars.ink front, quote, mark, by simp [Text.Chars.ink, isBlank_of_isQuote mark]⟩

/-- What is alike is so behind a string that both have. -/
theorem Alike.behind (unquoted : Unquoted owning) {front : List Fragment} (quoted : AreQuoted front)
    (some_string : ∃ content, string content ∈ front)
    (alike : Alike owning (textOf front ++ piece) (front ++ part)) :
    ink (replaceChar owner owning piece) = ink (textOf (fill owning part)) := by
  induction front using List.reverseRecOn generalizing piece part with
  | nil => simp at some_string
  | append_singleton front last ih =>
    cases last with
    | plain c =>
      have earlier : ∃ content, string content ∈ front := by simpa using some_string
      have quoted_front : AreQuoted front :=
        fun content member => quoted content (List.mem_append_left _ member)
      have longer : Alike owning (textOf front ++ c :: piece) (front ++ plain c :: part) := by
        simpa [text] using alike
      have below := ih quoted_front earlier longer
      have own : replaceChar owner owning (c :: piece) =
          textOf (fill owning [plain c]) ++ replaceChar owner owning piece := by
        rw [← replaceChar_singleton]
        exact replaceChar_append owning [c] piece
      have own_part : textOf (fill owning (plain c :: part)) =
          textOf (fill owning [plain c]) ++ textOf (fill owning part) := by
        rw [← textOf_append, ← fill_append]
        rfl
      rw [own, own_part, ink_append, ink_append] at below
      exact List.append_cancel_left below
    | string content =>
      obtain ⟨before, other, bare, other_bare, same⟩ := alike
      have own := quoted content (by simp)
      have ends : EndsQuoted (replaceChar owner owning (textOf (front ++ [string content]))) := by
        simpa [text, replaceChar_append] using (own.replaceChar owning).endsQuoted.append _
      have ends_part : EndsQuoted (textOf (fill owning (front ++ [string content]))) := by
        simpa [text, fill] using own.endsQuoted.append _
      rw [replaceChar_append, fill_append, textOf_append (fill owning _), ink_append, ink_append,
        ← List.append_assoc, ← List.append_assoc] at same
      refine ((ends.ink.append before).append_inj (ends_part.ink.append other) ?_ same).2
      rw [quotes_append, quotes_append, quotes_eq_zero bare, quotes_eq_zero other_bare, quotes_ink,
        quotes_ink, quotes_replaceChar unquoted, quotes_fill unquoted]

/-- What selectors are made from, in two ways: from pieces of the text of a key and from parts of
it. Each piece makes as many as each part, and equal ones are made from what is alike. -/
structure Comparable (owning : List Char) (made : List Char → List String)
    (meant : List Fragment → List String) : Prop where
  unquoted : Unquoted owning
  size : ∀ piece part, (made piece).length = (meant part).length
  alike : ∀ piece part, made piece = meant part → Alike owning piece part

variable {made : List Char → List String} {meant : List Fragment → List String}

/-- What the pieces that are not blank make. -/
def makes (made : List Char → List String) (pieces : List (List Char)) : List String :=
  (pieces.filter fun piece => !piece.all Text.isBlank).flatMap made

/-- What the parts that are not blank make. -/
def means (meant : List Fragment → List String) (parts : List (List Fragment)) : List String :=
  (parts.filter fun part => !part.all isGap).flatMap meant

theorem makes_cons_shown (shown : piece.all Text.isBlank = false) (pieces : List (List Char)) :
    makes made (piece :: pieces) = made piece ++ makes made pieces := by
  simp [makes, shown]

theorem makes_cons_blank (blank : piece.all Text.isBlank = true) (pieces : List (List Char)) :
    makes made (piece :: pieces) = makes made pieces := by
  simp [makes, blank]

theorem means_cons_shown (shown : part.all isGap = false) (parts : List (List Fragment)) :
    means meant (part :: parts) = meant part ++ means meant parts := by
  simp [means, shown]

theorem means_cons_blank (blank : part.all isGap = true) (parts : List (List Fragment)) :
    means meant (part :: parts) = means meant parts := by
  simp [means, blank]

theorem Comparable.cons_inj (comparable : Comparable owning made meant) {pieces : List (List Char)}
    {parts : List (List Fragment)} (shown : piece.all Text.isBlank = false)
    (shown_part : part.all isGap = false)
    (same : makes made (piece :: pieces) = means meant (part :: parts)) :
    made piece = meant part ∧ makes made pieces = means meant parts := by
  rw [makes_cons_shown shown, means_cons_shown shown_part] at same
  exact List.append_inj same (comparable.size piece part)

/-- Where both are cut, the rest is compared anew. -/
theorem Comparable.tail (comparable : Comparable owning made meant) {pieces : List (List Char)}
    {parts : List (List Fragment)} (quoted : AreQuoted part)
    (same : makes made (textOf part :: pieces) = means meant (part :: parts)) :
    makes made pieces = means meant parts := by
  have text_blank := all_isBlank_textOf quoted
  cases blank : part.all isGap with
  | true => rwa [makes_cons_blank (text_blank.trans blank), means_cons_blank blank] at same
  | false => exact (comparable.cons_inj (text_blank.trans blank) blank same).2

theorem modifyHead_nothing {α : Type} (pieces : List (List α)) :
    pieces.modifyHead (fun piece => [] ++ piece) = pieces := by
  cases pieces <;> rfl

theorem textOf_fill_comma (owning : List Char) (part : List Fragment) :
    textOf (fill owning (plain ',' :: part)) = ',' :: textOf (fill owning part) := rfl

theorem replaceChar_comma (owning piece : List Char) :
    replaceChar owner owning (',' :: piece) = ',' :: replaceChar owner owning piece := rfl

theorem ink_comma (cs : List Char) : ink (',' :: cs) = ',' :: ink cs := rfl

theorem not_all_blank_of_string {front : List Fragment} (quoted : AreQuoted front)
    (some_string : ∃ content, string content ∈ front) :
    front.all isGap = false ∧ (textOf front).all Text.isBlank = false := by
  obtain ⟨content, member⟩ := some_string
  have shown : front.all isGap = false := List.all_eq_false.mpr ⟨_, member, by simp [isGap]⟩
  exact ⟨shown, (all_isBlank_textOf quoted).trans shown⟩

section Differences

variable {front : List Fragment} {pieces : List (List Char)} {parts : List (List Fragment)}

/-- A comma behind a string shows if it cuts the text only. -/
theorem Comparable.ne_of_comma_cut (comparable : Comparable owning made meant)
    (quoted : AreQuoted front) (some_string : ∃ content, string content ∈ front) :
    makes made (textOf front :: pieces) ≠ means meant ((front ++ plain ',' :: part) :: parts) := by
  intro same
  obtain ⟨shown_part, shown⟩ := not_all_blank_of_string quoted some_string
  have alike := comparable.alike _ _ (comparable.cons_inj shown (by simp [shown_part]) same).1
  rw [← List.append_nil (textOf front)] at alike
  have behind := alike.behind comparable.unquoted quoted some_string
  rw [textOf_fill_comma, ink_comma] at behind
  cases behind

/-- A comma behind a string shows if it cuts the key only. -/
theorem Comparable.ne_of_comma_kept (comparable : Comparable owning made meant)
    (quoted : AreQuoted front) (some_string : ∃ content, string content ∈ front) :
    makes made ((textOf front ++ ',' :: piece) :: pieces) ≠ means meant (front :: parts) := by
  intro same
  obtain ⟨shown_part, shown⟩ := not_all_blank_of_string quoted some_string
  have alike : Alike owning (textOf front ++ ',' :: piece) (front ++ []) := by
    rw [List.append_nil]
    exact comparable.alike _ _ (comparable.cons_inj (by simp [shown]) shown_part same).1
  have behind := alike.behind comparable.unquoted quoted some_string
  rw [replaceChar_comma, ink_comma] at behind
  cases behind

/-- A string shows if it is cut: its last quote is missing. -/
theorem Comparable.ne_of_string_cut (comparable : Comparable owning made meant)
    {before after : List Char} (quoted : IsQuoted (before ++ ',' :: after)) :
    makes made ((textOf front ++ before) :: pieces) ≠
      means meant ((front ++ string (before ++ ',' :: after) :: part) :: parts) := by
  intro same
  obtain ⟨quote, inner, mark, split⟩ := quoted
  have opened : quote ∈ before := by
    cases before with
    | nil =>
      obtain ⟨rfl, -⟩ := List.cons.inj split
      cases mark
    | cons first rest => exact (List.cons.inj split).1 ▸ List.mem_cons_self
  have closed : 0 < quotes (',' :: after) := by
    obtain ⟨rest, last, spelled⟩ :=
      List.eq_nil_or_concat' (',' :: after) |>.resolve_left (List.cons_ne_nil _ _)
    rw [spelled, ← List.append_assoc, ← List.cons_append] at split
    obtain ⟨-, here⟩ := List.append_inj' split rfl
    obtain rfl := List.singleton_inj.mp here
    exact spelled ▸ EndsQuoted.quotes_pos ⟨rest, last, mark, rfl⟩
  have shown : (textOf front ++ before).all Text.isBlank = false :=
    List.all_eq_false.mpr ⟨quote, List.mem_append_right _ opened, by simp [isBlank_of_isQuote mark]⟩
  have shown_part : (front ++ string (before ++ ',' :: after) :: part).all isGap = false := by
    simp [isGap]
  have alike := comparable.alike _ _ (comparable.cons_inj shown shown_part same).1
  have counted := alike.quotes_eq comparable.unquoted
  rw [textOf_append, textOf_cons, text, quotes_append, quotes_append, quotes_append,
    quotes_append] at counted
  omega

end Differences

/-- Equal selectors are made from the same cut: `front` is what was read since the last comma that
cuts. -/
theorem Comparable.cutsAlike (comparable : Comparable owning made meant) {front key : List Fragment}
    {depth outside : Nat} (quoted_front : AreQuoted front) (quoted : AreQuoted key)
    (level : (∀ content, string content ∉ front) → depth = outside)
    (same : makes made ((Selector.cut depth (textOf key)).modifyHead (textOf front ++ ·)) =
      means meant ((cut outside key).modifyHead (front ++ ·))) :
    CutsAlike depth outside key := by
  induction key generalizing front depth outside with
  | nil => trivial
  | cons fragment rest ih =>
    obtain ⟨own, others⟩ := areQuoted_cons.mp quoted
    have below := cut_ne_nil (depthAfter outside fragment) rest
    obtain ⟨part, parts, cuts⟩ := List.exists_cons_of_ne_nil below
    cases fragment with
    | plain c =>
      have text_cons : textOf (plain c :: rest) = c :: textOf rest := rfl
      have some_string (differs : depth ≠ outside) : ∃ content, string content ∈ front := by
        by_contra none
        exact differs (level (not_exists.mp none))
      obtain ⟨piece, pieces, text_cuts, -⟩ := whole_cut (Selector.depthAfter depth c) (textOf rest)
      have longer (uncut : makes made (((Selector.cut (Selector.depthAfter depth c)
          (textOf rest)).modifyHead (c :: ·)).modifyHead (textOf front ++ ·)) =
            means meant
              (((cut (depthAfter outside (plain c)) rest).modifyHead (plain c :: ·)).modifyHead
              (front ++ ·))) :
          CutsAlike (Selector.depthAfter depth c) (Selector.depthAfter outside c) rest := by
        apply ih (quoted_front.append own) others
        · intro none
          rw [level fun content member => none content (List.mem_append_left _ member)]
        · simpa [Function.comp_def, text, depthAfter, List.modifyHead_modifyHead] using uncut
      rw [text_cons, cut_cons, cut] at same
      by_cases comma : c = ','
      · subst comma
        simp only [true_and] at same
        by_cases zero : depth = 0 <;> by_cases bare : outside = 0
        · subst zero bare
          simp only [if_true, List.modifyHead_cons, List.append_nil] at same
          have anew : makes made (Selector.cut 0 (textOf rest)) = means meant (cut 0 rest) :=
            comparable.tail quoted_front same
          refine ⟨fun _ => Iff.rfl, ih areQuoted_nil others (fun _ => rfl) ?_⟩
          rwa [textOf_nil, modifyHead_nothing, modifyHead_nothing]
        · simp only [zero, bare, if_true, if_false, cuts, List.modifyHead_cons,
            List.append_nil] at same
          exact absurd same (comparable.ne_of_comma_cut quoted_front (some_string (by omega)))
        · simp only [zero, bare, if_true, if_false, text_cuts, List.modifyHead_cons,
            List.append_nil] at same
          exact absurd same (comparable.ne_of_comma_kept quoted_front (some_string (by omega)))
        · simp only [zero, bare, if_false] at same
          exact ⟨fun _ => by simp [zero, bare], longer same⟩
      · rw [if_neg fun both => comma both.1, if_neg fun both => comma (plain.inj both.1)] at same
        exact ⟨fun named => absurd named comma, longer same⟩
    | string content =>
      have uncut : ¬ (string content = plain ',' ∧ outside = 0) := by simp
      rw [textOf_cons, text, cut, if_neg uncut] at same
      by_cases whole : Whole depth content
      · rw [cut_append_of_whole whole, List.modifyHead_modifyHead,
          List.modifyHead_modifyHead] at same
        refine ⟨whole, ih (quoted_front.append own) others ?_ ?_⟩
        · intro none
          exact absurd (List.mem_append_right _ (List.mem_singleton_self _)) (none content)
        · simpa [Function.comp_def, text, depthAfter] using same
      · obtain ⟨before, after, pieces, rfl, text_cuts⟩ :=
          exists_cut_of_not_whole whole (textOf rest)
        rw [text_cuts, cuts] at same
        exact absurd same (comparable.ne_of_string_cut (areQuoted_string.mp own))

theorem Comparable.makes_map_textOf_iff (comparable : Comparable owning made meant)
    {pieces : List (List Fragment)} (quoted : ∀ part ∈ pieces, AreQuoted part) :
    makes made (pieces.map textOf) = means meant pieces ↔
      ∀ part ∈ pieces.filter fun part => !part.all isGap, made (textOf part) = meant part := by
  induction pieces with
  | nil => simp [makes, means]
  | cons part rest ih =>
    obtain ⟨own, others⟩ := List.forall_mem_cons.mp quoted
    rw [List.map_cons]
    cases blank : part.all isGap with
    | true =>
      rw [makes_cons_blank ((all_isBlank_textOf own).trans blank), means_cons_blank blank,
        ih others, List.filter_cons_of_neg (by simp [blank])]
    | false =>
      have shown := (all_isBlank_textOf own).trans blank
      rw [List.filter_cons_of_pos (by simp [blank]), List.forall_mem_cons, ← ih others]
      constructor
      · exact comparable.cons_inj shown blank
      · rintro ⟨first, rest_same⟩
        rw [makes_cons_shown shown, means_cons_shown blank, first, rest_same]

/-- The selectors are as they should be just if the key is cut as it should be and so is each part
written. -/
theorem Comparable.makes_eq_means_iff (comparable : Comparable owning made meant)
    {key : List Fragment} (quoted : AreQuoted key) :
    makes made (Selector.cut 0 (textOf key)) = means meant (cut 0 key) ↔
      CutsAlike 0 0 key ∧ ∀ part ∈ parts key, made (textOf part) = meant part := by
  have quoted_parts : ∀ part ∈ cut 0 key, AreQuoted part :=
    fun part member content inside => quoted content (mem_of_mem_cut member inside)
  constructor
  · intro same
    have alike : CutsAlike 0 0 key := by
      apply comparable.cutsAlike areQuoted_nil quoted (fun _ => rfl)
      rwa [textOf_nil, modifyHead_nothing, modifyHead_nothing]
    rw [cut_textOf alike] at same
    exact ⟨alike, (comparable.makes_map_textOf_iff quoted_parts).mp same⟩
  · rintro ⟨alike, written⟩
    rw [cut_textOf alike]
    exact (comparable.makes_map_textOf_iff quoted_parts).mpr written

end Comparison

end Fragment

end AtomicCss.Selector
