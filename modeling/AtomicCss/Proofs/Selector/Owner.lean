import AtomicCss.Proofs.Basic
import AtomicCss.Selector

/-!
Which selectors mention the owner.

A part of a key mentions the owner, once it is combined with an owner, exactly if that owner does.
So the selectors below several keys mention what the outermost owners mention, unless a key on the
way has no part: then nothing below it has an owner to mention.
-/

namespace AtomicCss

namespace Text.Chars

/-- The characters that are not blank. -/
def ink (cs : List Char) : List Char := cs.filter fun c => !isBlank c

@[simp] theorem ink_append (front back : List Char) : ink (front ++ back) = ink front ++ ink back :=
  List.filter_append ..

@[simp] theorem ink_ink (cs : List Char) : ink (ink cs) = ink cs := by simp [ink]

theorem mem_ink {cs : List Char} {c : Char} : c ∈ ink cs ↔ c ∈ cs ∧ isBlank c = false := by
  simp [ink]

theorem flatten_split (cs : List Char) : (split isBlank cs).flatten = ink cs := by
  induction cs with
  | nil => rfl
  | cons c rest ih =>
    rw [ink] at ih
    unfold split
    split
    · next blank => simp [ink, blank, ih]
    · next shown =>
      cases pieces : split isBlank rest with
      | nil => simp_all [ink]
      | cons piece others => simp_all [ink]

theorem ink_intercalate (pieces : List (List Char)) :
    ink ([' '].intercalate pieces) = ink pieces.flatten := by
  have blank : isBlank ' ' = true := by decide
  induction pieces with
  | nil => rfl
  | cons piece rest ih =>
    cases rest with
    | nil => simp [List.intercalate]
    | cons next others =>
      have joined : [' '].intercalate (piece :: next :: others) =
          piece ++ ' ' :: [' '].intercalate (next :: others) := by
        simp [List.intercalate]
      rw [joined, List.flatten_cons, ink_append, ink_append, ← ih]
      simp [ink, blank]

@[simp] theorem ink_collapse (cs : List Char) : ink (collapse cs) = ink cs := by
  rw [collapse, ink_intercalate, words, List.flatten_filter_not_isEmpty, flatten_split, ink_ink]

theorem ink_dropWhile (cs : List Char) : ink (cs.dropWhile isBlank) = ink cs := by
  induction cs with
  | nil => rfl
  | cons c rest ih =>
    by_cases blank : isBlank c = true
    · rw [List.dropWhile_cons_of_pos blank, ih]
      simp [ink, blank]
    · rw [List.dropWhile_cons_of_neg blank]

@[simp] theorem ink_trim (cs : List Char) : ink (trim cs) = ink cs := by
  have reversed (cs : List Char) : ink cs.reverse = (ink cs).reverse := List.filter_reverse ..
  rw [trim, trimEnd, reversed, ink_dropWhile, reversed, List.reverse_reverse, ink_dropWhile]

end Text.Chars

namespace Selector

open Text.Chars

theorem mentionsOwner_iff {cs : List Char} : mentionsOwner cs = true ↔ owner ∈ cs := by
  simp [mentionsOwner]

theorem mentionsOwner_append (front back : List Char) :
    mentionsOwner (front ++ back) = (mentionsOwner front || mentionsOwner back) := by
  rw [Bool.eq_iff_iff]
  simp [mentionsOwner_iff]

/-- Blanks decide nothing about the owner. -/
theorem mentionsOwner_ink (cs : List Char) : mentionsOwner (ink cs) = mentionsOwner cs := by
  have shown : Text.isBlank owner = false := by decide
  rw [Bool.eq_iff_iff]
  simp [mentionsOwner_iff, mem_ink, shown]

theorem mentionsOwner_eq_of_ink {first second : List Char} (same : ink first = ink second) :
    mentionsOwner first = mentionsOwner second := by
  rw [← mentionsOwner_ink first, same, mentionsOwner_ink]

theorem mentionsOwner_replaceChar {owning part : List Char} (named : mentionsOwner part = true) :
    mentionsOwner (replaceChar owner owning part) = mentionsOwner owning := by
  rw [mentionsOwner_iff] at named
  rw [Bool.eq_iff_iff, mentionsOwner_iff, mentionsOwner_iff, replaceChar, List.mem_flatMap]
  constructor
  · rintro ⟨c, -, written⟩
    split at written
    · exact written
    · next plain => exact absurd (List.mem_singleton.mp written).symm plain
  · intro inside
    exact ⟨owner, named, by simpa using inside⟩

/-- What a part describes mentions the owner exactly if what it is combined with does. -/
theorem mentionsOwner_combine (owning part : List Char) :
    mentionsOwner (combine owning part) = mentionsOwner owning := by
  rw [combine, mentionsOwner_eq_of_ink (ink_collapse _)]
  split
  · next named => exact mentionsOwner_replaceChar named
  · next plain =>
    have blank : mentionsOwner [' '] = false := by decide
    rw [← List.singleton_append, mentionsOwner_append, mentionsOwner_append, blank]
    simp [plain]

/-- The selectors below several keys, the outermost first. -/
def chain? (owners : List String) (keys : List String) : Option (List String) :=
  keys.foldlM nest? owners

@[simp] theorem chain?_nil (owners : List String) : chain? owners [] = some owners := rfl

theorem chain?_cons (owners : List String) (key : String) (keys : List String) :
    chain? owners (key :: keys) = (nest? owners key).bind (chain? · keys) := rfl

/-- Each of the selectors mentions the owner, or none does. -/
def Mention (mentioned : Bool) (selectors : List String) : Prop :=
  ∀ selector ∈ selectors, mentionsOwner selector.toList = mentioned

variable {owners selectors keys : List String} {key : String} {mentioned : Bool}

theorem mem_nest? (some_owner : owners ≠ []) (nested : nest? owners key = some selectors)
    {selector : String} :
    selector ∈ selectors ↔ ∃ part ∈ parts key.toList, ∃ owning ∈ owners,
      String.ofList (combine owning.toList part) = selector := by
  rw [nest?, if_neg (by simpa using some_owner), Option.some.injEq] at nested
  simp [← nested]

theorem mention_nest? (mention : Mention mentioned owners) (some_owner : owners ≠ [])
    (nested : nest? owners key = some selectors) : Mention mentioned selectors := by
  intro selector member
  obtain ⟨part, -, owning, inside, rfl⟩ := (mem_nest? some_owner nested).mp member
  rw [String.toList_ofList, mentionsOwner_combine]
  exact mention owning inside

/-- Without owners around it a key mentions none. -/
theorem mention_nest?_nil (nested : nest? [] key = some selectors) : Mention false selectors := by
  simp only [nest?, List.isEmpty_nil, if_true] at nested
  split at nested
  · cases nested
  · next plain =>
    obtain rfl := Option.some.inj nested
    intro selector member
    obtain ⟨part, inside, rfl⟩ := List.mem_map.mp member
    rw [String.toList_ofList, mentionsOwner_eq_of_ink (ink_collapse _)]
    simpa using fun named => plain (List.any_eq_true.mpr ⟨part, inside, named⟩)

theorem nest?_eq_nil_iff (nested : nest? owners key = some selectors) :
    selectors = [] ↔ parts key.toList = [] := by
  by_cases none_left : owners = []
  · simp only [nest?, none_left, List.isEmpty_nil, if_true] at nested
    split at nested
    · cases nested
    · obtain rfl := Option.some.inj nested
      exact List.map_eq_nil_iff
  · obtain ⟨owning, inside⟩ := List.exists_mem_of_ne_nil owners none_left
    have member := @mem_nest? _ _ _ none_left nested
    constructor
    · rintro rfl
      apply List.eq_nil_iff_forall_not_mem.mpr
      intro part written
      exact absurd (member.mpr ⟨part, written, owning, inside, rfl⟩) List.not_mem_nil
    · intro no_part
      apply List.eq_nil_iff_forall_not_mem.mpr
      intro selector placed
      obtain ⟨part, written, -⟩ := member.mp placed
      exact absurd (no_part ▸ written) List.not_mem_nil

/-- As long as every key has a part, the selectors below owners mention what these do. -/
theorem mention_chain? (mention : Mention mentioned owners) (some_owner : owners ≠ [])
    (all : ∀ key ∈ keys, parts key.toList ≠ []) (nested : chain? owners keys = some selectors) :
    selectors ≠ [] ∧ Mention mentioned selectors := by
  induction keys generalizing owners with
  | nil =>
    obtain rfl := Option.some.inj nested
    exact ⟨some_owner, mention⟩
  | cons key rest ih =>
    obtain ⟨own, others⟩ := List.forall_mem_cons.mp all
    obtain ⟨inner, first, below⟩ := Option.bind_eq_some_iff.mp nested
    exact ih (mention_nest? mention some_owner first)
      (mt (nest?_eq_nil_iff first).mp own) others below

theorem mention_chain?_of_not (mention : Mention false owners)
    (nested : chain? owners keys = some selectors) : Mention false selectors := by
  induction keys generalizing owners with
  | nil =>
    obtain rfl := Option.some.inj nested
    exact mention
  | cons key rest ih =>
    obtain ⟨inner, first, below⟩ := Option.bind_eq_some_iff.mp nested
    apply ih _ below
    by_cases none_left : owners = []
    · subst none_left
      exact mention_nest?_nil first
    · exact mention_nest? mention none_left first

/-- Below a key without parts no selector mentions the owner. -/
theorem mention_chain?_of_lost (lost : ∃ key ∈ keys, parts key.toList = [])
    (nested : chain? owners keys = some selectors) : Mention false selectors := by
  induction keys generalizing owners with
  | nil => simp at lost
  | cons key rest ih =>
    obtain ⟨inner, first, below⟩ := Option.bind_eq_some_iff.mp nested
    obtain ⟨other, member, no_part⟩ := lost
    rcases List.mem_cons.mp member with rfl | inside
    · obtain rfl := (nest?_eq_nil_iff first).mpr no_part
      apply mention_chain?_of_not _ below
      simp [Mention]
    · exact ih ⟨other, inside, no_part⟩ below

end Selector

end AtomicCss
