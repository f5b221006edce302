import AtomicCss.Proofs.Rule.MediaQuery
import AtomicCss.Proofs.Selector.Strings

/-!
What parts with strings are written as.

A part is written below an owner as its characters say, also those in its strings. It should be
written as its plain characters say, with its strings as they stand. Both come to the same text just
if the part does not mention the owner in strings alone, and each string stays as it is when the
owner is filled in and its spacing collapsed.
-/

namespace AtomicCss

namespace Text.Chars

theorem collapse_padded {front back : List Char} (front_blank : ∀ c ∈ front, isBlank c = true)
    (back_blank : ∀ c ∈ back, isBlank c = true) (cs : List Char) :
    collapse (front ++ cs ++ back) = collapse cs := by
  simp only [collapse_eq_squeeze]
  rw [squeeze_append_gaps _ back_blank, squeeze_of_gaps front_blank]

theorem exists_padded_trim (cs : List Char) : ∃ front back, cs = front ++ trim cs ++ back ∧
    (∀ c ∈ front, isBlank c = true) ∧ ∀ c ∈ back, isBlank c = true := by
  obtain ⟨back, split, blank⟩ := exists_blank_end (cs.dropWhile isBlank)
  refine ⟨cs.takeWhile isBlank, back, ?_, fun c member => List.mem_takeWhile_imp member, blank⟩
  rw [List.append_assoc, trim, ← split, List.takeWhile_append_dropWhile]

theorem collapse_trim (cs : List Char) : collapse (trim cs) = collapse cs := by
  obtain ⟨front, back, split, front_blank, back_blank⟩ := exists_padded_trim cs
  conv_rhs => rw [split, collapse_padded front_blank back_blank]

theorem trim_eq_nil_iff {cs : List Char} : trim cs = [] ↔ cs.all isBlank = true := by
  constructor
  · intro none
    obtain ⟨front, back, split, front_blank, back_blank⟩ := exists_padded_trim cs
    rw [split, none, List.append_nil, List.all_eq_true]
    exact List.forall_mem_append.mpr ⟨front_blank, back_blank⟩
  · intro blank
    rw [List.all_eq_true] at blank
    rw [trim, List.dropWhile_eq_nil_iff.mpr blank]
    rfl

end Text.Chars

namespace Selector

open Text.Chars

theorem replaceChar_append (owning front back : List Char) :
    replaceChar owner owning (front ++ back) =
      replaceChar owner owning front ++ replaceChar owner owning back := List.flatMap_append ..

theorem replaceChar_of_not_mem {owning cs : List Char} (plain : owner ∉ cs) :
    replaceChar owner owning cs = cs := by
  induction cs with
  | nil => rfl
  | cons c rest ih =>
    rw [List.mem_cons, not_or] at plain
    rw [replaceChar_cons, if_neg (Ne.symm plain.1), ih plain.2]
    rfl

theorem owner_not_mem_of_blank {cs : List Char} (blank : ∀ c ∈ cs, Text.isBlank c = true) :
    owner ∉ cs := by
  intro member
  have never := blank owner member
  revert never
  decide

/-- The blanks at both ends of a part are not shown. -/
theorem combine_trim (owning part : List Char) :
    combine owning (trim part) = combine owning part := by
  obtain ⟨front, back, split, front_blank, back_blank⟩ := exists_padded_trim part
  have filled : replaceChar owner owning part =
      front ++ replaceChar owner owning (trim part) ++ back := by
    conv_lhs => rw [split]
    rw [replaceChar_append, replaceChar_append,
      replaceChar_of_not_mem (owner_not_mem_of_blank front_blank),
      replaceChar_of_not_mem (owner_not_mem_of_blank back_blank)]
  unfold combine
  rw [mentionsOwner_eq_of_ink (ink_trim part)]
  split
  · rw [filled, collapse_padded front_blank back_blank]
  · have space : Text.isBlank ' ' = true := by decide
    conv_rhs => rw [split]
    simp only [collapse_eq_squeeze]
    rw [← List.cons_append, ← List.append_assoc, Text.squeeze_append_gaps _ back_blank,
      Text.squeeze_gaps _ space front_blank]

namespace Fragment

def Unquoted (text : List Char) : Prop := ∀ c ∈ text, isQuote c = false

/-- Fragments with the owner in the place of each plain `&`. -/
def fill (owning : List Char) (part : List Fragment) : List Fragment :=
  part.flatMap fun fragment => if fragment = plain owner then owning.map plain else [fragment]

/-- What a part describes below an owner: strings mention no owner, and stay as they are. -/
def combine (owning : List Char) (part : List Fragment) : List Char :=
  textOf (spaced
    (if plain owner ∈ part then fill owning part else owning.map plain ++ plain ' ' :: part))

theorem textOf_map_plain (cs : List Char) : textOf (cs.map plain) = cs := by
  induction cs with
  | nil => rfl
  | cons c rest ih => rw [List.map_cons, textOf_cons, ih]; rfl

theorem areQuoted_map_plain (cs : List Char) : AreQuoted (cs.map plain) := by simp [AreQuoted]

theorem string_mem_fill {owning content : List Char} {part : List Fragment} :
    string content ∈ fill owning part ↔ string content ∈ part := by
  rw [fill, List.mem_flatMap]
  constructor
  · rintro ⟨fragment, member, written⟩
    split at written
    · simp at written
    · rwa [List.mem_singleton.mp written]
  · intro member
    exact ⟨_, member, by simp⟩

theorem fill_cons (owning : List Char) (fragment : Fragment) (rest : List Fragment) :
    fill owning (fragment :: rest) =
      (if fragment = plain owner then owning.map plain else [fragment]) ++ fill owning rest := rfl

theorem fill_append (owning : List Char) (front back : List Fragment) :
    fill owning (front ++ back) = fill owning front ++ fill owning back := List.flatMap_append ..

theorem fill_of_not_mem {owning : List Char} {part : List Fragment} (unnamed : plain owner ∉ part) :
    fill owning part = part := by
  induction part with
  | nil => rfl
  | cons fragment rest ih =>
    rw [List.mem_cons, not_or] at unnamed
    rw [fill_cons, if_neg (Ne.symm unnamed.1), ih unnamed.2]
    rfl

theorem replaceChar_singleton (owning : List Char) (c : Char) :
    replaceChar owner owning [c] = textOf (fill owning [plain c]) := by
  rw [fill_cons, replaceChar_cons]
  by_cases named : c = owner
  · rw [if_pos named, if_pos (congrArg plain named), textOf_append, textOf_map_plain]
    rfl
  · rw [if_neg named, if_neg (by simpa using named)]
    rfl

/-- The owner is written for each plain `&`, and in each string. -/
theorem replaceChar_textOf (owning : List Char) (part : List Fragment) :
    replaceChar owner owning (textOf part) =
      textOf ((fill owning part).map (mapString (replaceChar owner owning))) := by
  induction part with
  | nil => rfl
  | cons fragment rest ih =>
    rw [← List.singleton_append, fill_append, textOf_append, replaceChar_append, ih,
      List.map_append, textOf_append]
    congr 1
    cases fragment with
    | plain c =>
      have unchanged : (fill owning [plain c]).map (mapString (replaceChar owner owning)) =
          fill owning [plain c] := by
        rw [fill_cons]
        split <;> simp [fill, mapString]
      rw [unchanged, ← replaceChar_singleton]
      rfl
    | string content => simp [fill, text, mapString]

section Quotes

variable {owning : List Char}

theorem isQuote_owner : isQuote owner = false := by decide

theorem quotes_eq_zero {cs : List Char} (unquoted : Unquoted cs) : quotes cs = 0 :=
  List.countP_eq_zero.mpr fun c member => by simp [unquoted c member]

theorem quotes_replaceChar (unquoted : Unquoted owning) (cs : List Char) :
    quotes (replaceChar owner owning cs) = quotes cs := by
  induction cs with
  | nil => rfl
  | cons c rest ih =>
    have split : quotes (c :: rest) = quotes [c] + quotes rest := quotes_append [c] rest
    rw [replaceChar_cons, quotes_append, ih, split]
    split
    · next named =>
      rw [quotes_eq_zero unquoted, named]
      rfl
    · rfl

theorem IsQuoted.replaceChar {content : List Char} (quoted : IsQuoted content)
    (owning : List Char) :
    IsQuoted (replaceChar owner owning content) := by
  obtain ⟨quote, inner, mark, rfl⟩ := quoted
  have other : owner ∉ [quote] := by
    intro named
    rw [← List.mem_singleton.mp named, isQuote_owner] at mark
    cases mark
  refine ⟨quote, Text.Chars.replaceChar owner owning inner, mark, ?_⟩
  rw [← List.singleton_append, replaceChar_append, replaceChar_append, replaceChar_of_not_mem other]
  rfl

theorem quotes_ink (cs : List Char) : quotes (ink cs) = quotes cs := by
  apply countP_ink
  intro c blank
  cases mark : isQuote c with
  | false => rfl
  | true => simp [isBlank_of_isQuote mark] at blank

theorem quotes_collapse (cs : List Char) : quotes (Text.Chars.collapse cs) = quotes cs := by
  rw [← quotes_ink, ink_collapse, quotes_ink]

theorem EndsQuoted.collapse {content : List Char} (ends : EndsQuoted content) :
    EndsQuoted (Text.Chars.collapse content) := by
  obtain ⟨front, quote, mark, rfl⟩ := ends
  obtain ⟨kept, split⟩ := Text.exists_squeeze_concat front (isBlank_of_isQuote mark)
  exact ⟨kept, quote, mark, (collapse_eq_squeeze _).trans split⟩

/-- Each string stays as it is where the owner is filled in and the spacing collapsed. -/
def Kept (owning : List Char) (part : List Fragment) : Prop :=
  ∀ content, string content ∈ part →
    Text.Chars.collapse (replaceChar owner owning content) = content

theorem collapse_replaceChar_eq_iff (unquoted : Unquoted owning) {part : List Fragment}
    (quoted : AreQuoted part) :
    Text.Chars.collapse (replaceChar owner owning (textOf part)) = textOf
      (spaced (fill owning part)) ↔
      Kept owning part := by
  have listed {content : List Char} : string content ∈ spaced (fill owning part) ↔
      string content ∈ part :=
    string_mem_spaced.trans string_mem_fill
  have quoted_filled :
      AreQuoted ((fill owning part).map (mapString (replaceChar owner owning))) := by
    intro content member
    obtain ⟨fragment, filled, written⟩ := List.mem_map.mp member
    cases fragment with
    | plain c => cases written
    | string inner =>
      obtain rfl := string.inj written
      exact (quoted inner (string_mem_fill.mp filled)).replaceChar owning
  have changed : Text.Chars.collapse (replaceChar owner owning (textOf part)) =
      textOf ((spaced (fill owning part)).map
        (mapString (Text.Chars.collapse ∘ replaceChar owner owning))) := by
    rw [replaceChar_textOf, collapse_textOf quoted_filled, spaced_map, List.map_map]
    simp only [Function.comp_def, mapString_mapString]
  rw [changed, textOf_map_eq_iff]
  · simp only [listed]
    rfl
  · exact fun content member => quoted content (listed.mp member)
  · intro content member
    have own := quoted content (listed.mp member)
    refine ⟨(own.replaceChar owning).endsQuoted.collapse, ?_⟩
    rw [Function.comp_apply, quotes_collapse, quotes_replaceChar unquoted]

/-- Without an owner the spacing of a part is collapsed alone. -/
theorem collapse_eq_iff {part : List Fragment} (quoted : AreQuoted part) :
    Text.Chars.collapse (textOf part) = textOf (spaced part) ↔
      ∀ content, string content ∈ part → Text.Chars.collapse content = content := by
  rw [collapse_textOf quoted, textOf_map_eq_iff]
  · simp only [string_mem_spaced]
  · exact fun content member => quoted content (string_mem_spaced.mp member)
  · intro content member
    exact ⟨(quoted content (string_mem_spaced.mp member)).endsQuoted.collapse,
      quotes_collapse content⟩

theorem ink_combine (owning piece : List Char) : ink (Selector.combine owning piece) =
    (if mentionsOwner piece then [] else ink owning) ++ ink (replaceChar owner owning piece) := by
  rw [Selector.combine, ink_collapse]
  split
  · rfl
  · next unnamed =>
    rw [replaceChar_of_not_mem (mt mentionsOwner_iff.mpr unnamed), ← List.singleton_append,
      ink_append, ink_append]
    rfl

theorem ink_textOf_combine (owning : List Char) (part : List Fragment) : ink (combine owning part) =
    (if plain owner ∈ part then [] else ink owning) ++ ink (textOf (fill owning part)) := by
  rw [combine, ink_textOf_spaced]
  split
  · rfl
  · next unnamed =>
    rw [fill_of_not_mem unnamed, textOf_append, textOf_map_plain, textOf_cons,
      ink_append, ink_append]
    rfl

/-- An owner that is mentioned in strings only has a quote in front of it. -/
theorem exists_quote_before {part : List Fragment} (quoted : AreQuoted part)
    (unnamed : plain owner ∉ part) {front back : List Char}
    (split : textOf part = front ++ owner :: back) :
    ∃ quote ∈ front, isQuote quote = true := by
  induction part generalizing front with
  | nil => simp at split
  | cons fragment rest ih =>
    obtain ⟨own, others⟩ := areQuoted_cons.mp quoted
    rw [List.mem_cons, not_or] at unnamed
    cases fragment with
    | plain c =>
      cases front with
      | nil =>
        obtain ⟨rfl, -⟩ := List.cons.inj split
        exact absurd rfl unnamed.1
      | cons first more =>
        obtain ⟨-, below⟩ := List.cons.inj split
        obtain ⟨quote, member, mark⟩ := ih others unnamed.2 below
        exact ⟨quote, List.mem_cons_of_mem _ member, mark⟩
    | string content =>
      obtain ⟨quote, inner, mark, rfl⟩ := areQuoted_string.mp own
      cases front with
      | nil =>
        obtain ⟨rfl, -⟩ := List.cons.inj split
        cases mark
      | cons first more =>
        obtain ⟨rfl, -⟩ := List.cons.inj split
        exact ⟨quote, List.mem_cons_self, mark⟩

/-- A part that mentions the owner in strings only is written with the owner in them, and not in
front. -/
theorem combine_ne (unquoted : Unquoted owning) {part : List Fragment} (quoted : AreQuoted part)
    (named : owner ∈ textOf part) (unnamed : plain owner ∉ part) :
    Selector.combine owning (textOf part) ≠ combine owning part := by
  intro same
  have mention := mentionsOwner_iff.mpr named
  have inked : ink (replaceChar owner owning (textOf part)) = ink owning ++ ink (textOf part) := by
    have both := congrArg ink same
    rwa [ink_combine, ink_textOf_combine, if_pos mention, if_neg unnamed,
      fill_of_not_mem unnamed] at both
  obtain ⟨front, back, split, first⟩ := List.eq_append_cons_of_mem named
  obtain ⟨quote, member, mark⟩ := exists_quote_before quoted unnamed split
  obtain ⟨before, between, rfl⟩ := List.append_of_mem member
  have nothing : ink owning = [] := by
    have ends : EndsQuoted (ink (before ++ [quote])) :=
      ⟨ink before, quote, mark, by simp [ink, isBlank_of_isQuote mark]⟩
    have counted :
        quotes (ink (before ++ [quote])) = quotes (ink owning ++ ink (before ++ [quote])) := by
      rw [quotes_append, quotes_ink owning, quotes_eq_zero unquoted, Nat.zero_add]
    have kept : owner ∉ before ++ [quote] := by
      rw [List.append_cons, List.mem_append, not_or] at first
      exact first.1
    have spelled : textOf part = (before ++ [quote]) ++ (between ++ owner :: back) := by
      simp [split]
    rw [spelled, replaceChar_append, replaceChar_of_not_mem kept, ink_append (before ++ [quote]),
      ink_append (before ++ [quote]), ← List.append_assoc] at inked
    simpa using (ends.append_inj (ends.append (ink owning)) counted inked).1
  have never := congrArg mentionsOwner inked
  rw [mentionsOwner_ink, mentionsOwner_replaceChar mention, mentionsOwner_append, mentionsOwner_ink,
    mentionsOwner_ink, mention, ← mentionsOwner_ink, nothing] at never
  cases never

theorem combine_eq_iff (unquoted : Unquoted owning) {part : List Fragment}
    (quoted : AreQuoted part) :
    Selector.combine owning (textOf part) = combine owning part ↔
      (owner ∈ textOf part → plain owner ∈ part) ∧ Kept owning part := by
  by_cases unnamed : plain owner ∈ part
  · have named : owner ∈ textOf part :=
      List.mem_flatMap.mpr ⟨_, unnamed, List.mem_singleton_self owner⟩
    rw [Selector.combine, if_pos (mentionsOwner_iff.mpr named), combine, if_pos unnamed,
      collapse_replaceChar_eq_iff unquoted quoted]
    simp [unnamed]
  · by_cases named : owner ∈ textOf part
    · simp [named, unnamed, combine_ne unquoted quoted named unnamed]
    · have quoted_below : AreQuoted (owning.map plain ++ plain ' ' :: part) :=
        (areQuoted_map_plain owning).append (areQuoted_plain.append quoted)
      have spelled :
          owning ++ ' ' :: textOf part = textOf (owning.map plain ++ plain ' ' :: part) := by
        rw [textOf_append, textOf_map_plain]
        rfl
      have kept : Kept owning part ↔
          ∀ content, string content ∈ part → Text.Chars.collapse content = content := by
        apply forall₂_congr
        intro content member
        have other : owner ∉ content :=
          fun inside => named (List.mem_flatMap.mpr ⟨_, member, inside⟩)
        rw [replaceChar_of_not_mem other]
      rw [Selector.combine, if_neg (mt mentionsOwner_iff.mp named), combine, if_neg unnamed,
        spelled, collapse_eq_iff quoted_below, kept]
      simp [named]

end Quotes

end Fragment

end Selector

end AtomicCss
