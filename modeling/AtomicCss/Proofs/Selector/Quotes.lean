import AtomicCss.Proofs.Selector.Cutting

/-!
Keys with strings below owners.

Strings should be opaque: a key is cut at the commas outside of strings and brackets, and strings
stay as they are in what its parts are written as. The selectors of a key are as they should be just
if brackets and commas in its strings make no difference to where it is cut, and each part is
written as it should be. So they are for every key whose strings hold no commas, brackets, owners or
runs of blanks.
-/

namespace AtomicCss.Selector

open Text.Chars

namespace Fragment

/-- The selectors that a key should have below its owners: strings are never cut, filled or
collapsed. -/
def nest? (owners : List String) (key : List Fragment) : Option (List String) :=
  if owners.isEmpty then
    if plain owner ∈ key then none
    else some ((parts key).map fun part => String.ofList (textOf (spaced part)))
  else
    some ((parts key).flatMap fun part => owners.map fun owning =>
      String.ofList (combine owning.toList part))

theorem flatMap_parts {image made : List Char → List String}
    (trimmed : ∀ piece, image (trim piece) = made piece) (cs : List Char) :
    (Selector.parts cs).flatMap image = makes made (Selector.cut 0 cs) := by
  have shown (piece : List Char) : (!(trim piece).isEmpty) = !piece.all Text.isBlank := by
    rw [Bool.eq_iff_iff]
    simp [trim_eq_nil_iff]
  rw [Selector.parts, List.filter_map, List.flatMap_map, makes]
  simp only [Function.comp_def, shown, trimmed]

theorem nest?_of_owners {owners : List String} (some_owner : owners ≠ []) (key : String) :
    Selector.nest? owners key = some (makes
      (fun piece => owners.map fun owning => String.ofList (Selector.combine owning.toList piece))
      (Selector.cut 0 key.toList)) := by
  rw [Selector.nest?, if_neg (by simpa using some_owner)]
  congr 1
  apply flatMap_parts
  intro piece
  simp only [combine_trim]

theorem mem_cut_iff {depth : Nat} {c : Char} (other : c ≠ ',') {cs : List Char} :
    (∃ piece ∈ Selector.cut depth cs, c ∈ piece) ↔ c ∈ cs := by
  induction cs generalizing depth with
  | nil => simp [Selector.cut]
  | cons first rest ih =>
    rw [cut_cons]
    split
    · next comma => simp [ih, comma.1, other]
    · obtain ⟨piece, pieces, cuts, -⟩ := whole_cut (Selector.depthAfter depth first) rest
      have below := @ih (Selector.depthAfter depth first)
      rw [cuts] at below ⊢
      simp only [List.modifyHead_cons, List.mem_cons, exists_eq_or_imp] at below ⊢
      rw [← below, or_assoc]

theorem any_mentionsOwner_parts (cs : List Char) :
    (Selector.parts cs).any mentionsOwner = mentionsOwner cs := by
  rw [Bool.eq_iff_iff, mentionsOwner_iff, ← mem_cut_iff (by decide : owner ≠ ','), List.any_eq_true]
  constructor
  · rintro ⟨part, member, named⟩
    obtain ⟨piece, inside, rfl⟩ := List.mem_map.mp (List.mem_filter.mp member).1
    rw [mentionsOwner_eq_of_ink (ink_trim piece)] at named
    exact ⟨piece, inside, mentionsOwner_iff.mp named⟩
  · rintro ⟨piece, inside, named⟩
    have named : mentionsOwner (trim piece) = true := by
      rwa [mentionsOwner_eq_of_ink (ink_trim piece), mentionsOwner_iff]
    have shown : trim piece ≠ [] := List.ne_nil_of_mem (mentionsOwner_iff.mp named)
    exact ⟨trim piece,
      List.mem_filter.mpr ⟨List.mem_map_of_mem inside, by simpa using shown⟩, named⟩

theorem nest?_nil (key : String) : Selector.nest? [] key =
    if owner ∈ key.toList then none
    else some (makes (fun piece => [String.ofList (Text.Chars.collapse piece)])
      (Selector.cut 0 key.toList)) := by
  have each :
      (Selector.parts key.toList).flatMap (fun part => [String.ofList (Text.Chars.collapse part)]) =
      makes (fun piece => [String.ofList (Text.Chars.collapse piece)])
        (Selector.cut 0 key.toList) := by
    apply flatMap_parts
    intro piece
    simp only [collapse_trim]
  rw [Selector.nest?, if_pos List.isEmpty_nil, any_mentionsOwner_parts, List.map_eq_flatMap, each]
  simp only [mentionsOwner_iff]

theorem comparable_below (first : String) (others : List String)
    (unquoted : Unquoted first.toList) :
    Comparable first.toList
      (fun piece => (first :: others).map fun owning =>
        String.ofList (Selector.combine owning.toList piece))
      (fun part => (first :: others).map fun owning =>
        String.ofList (combine owning.toList part)) := by
  refine ⟨unquoted, by simp, ?_⟩
  intro piece part same
  have written : Selector.combine first.toList piece = combine first.toList part :=
    String.ofList_injective (List.cons.inj same).1
  have inked := congrArg ink written
  rw [ink_combine, ink_textOf_combine] at inked
  have bare (named : Prop) [Decidable named] :
      Unquoted (if named then [] else ink first.toList) := by
    split
    · simp [Unquoted]
    · exact fun c member => unquoted c (mem_ink.mp member).1
  exact ⟨_, _, bare _, bare _, inked⟩

theorem replaceChar_self (cs : List Char) : replaceChar owner [owner] cs = cs := by
  induction cs with
  | nil => rfl
  | cons c rest ih =>
    rw [replaceChar_cons, ih]
    split <;> simp [*]

theorem fill_self (part : List Fragment) : fill [owner] part = part := by
  induction part with
  | nil => rfl
  | cons fragment rest ih =>
    rw [fill_cons, ih]
    split <;> simp [*]

theorem comparable_root : Comparable [owner]
    (fun piece => [String.ofList (Text.Chars.collapse piece)])
    (fun part => [String.ofList (textOf (spaced part))]) := by
  refine ⟨by simp [Unquoted, isQuote_owner], fun _ _ => rfl, ?_⟩
  intro piece part same
  have written : Text.Chars.collapse piece = textOf (spaced part) :=
    String.ofList_injective (List.singleton_inj.mp same)
  refine ⟨[], [], by simp [Unquoted], by simp [Unquoted], ?_⟩
  rw [replaceChar_self, fill_self, List.nil_append, List.nil_append, ← ink_textOf_spaced, ← written,
    ink_collapse]

/-- What stands for a string in the selectors of a key, before the spacing is collapsed. -/
def writings (owners : List String) (content : List Char) : List (List Char) :=
  if owners.isEmpty then [content]
  else owners.map fun owning => replaceChar owner owning.toList content

/-- Strings alone do not make the part mention the owner, and each string is written as it
stands. -/
structure Untouched (owners : List String) (part : List Fragment) : Prop where
  named : owner ∈ textOf part → plain owner ∈ part
  kept : ∀ content, string content ∈ part →
    ∀ text ∈ writings owners content, Text.Chars.collapse text = content

theorem untouched_below_iff {owners : List String} (some_owner : owners ≠ [])
    (unquoted : ∀ owning ∈ owners, Unquoted owning.toList) {part : List Fragment}
    (quoted : AreQuoted part) :
    (owners.map fun owning => String.ofList (Selector.combine owning.toList (textOf part))) =
      (owners.map fun owning => String.ofList (combine owning.toList part)) ↔
        Untouched owners part := by
  rw [List.map_inj_left]
  have each : (∀ owning ∈ owners, String.ofList (Selector.combine owning.toList (textOf part)) =
      String.ofList (combine owning.toList part)) ↔
      ∀ owning ∈ owners, (owner ∈ textOf part → plain owner ∈ part) ∧ Kept owning.toList part := by
    apply forall₂_congr
    intro owning member
    rw [String.ofList_inj, combine_eq_iff (unquoted owning member) quoted]
  rw [each]
  obtain ⟨first, listed⟩ := List.exists_mem_of_ne_nil owners some_owner
  constructor
  · intro all
    refine ⟨(all first listed).1, fun content member text written => ?_⟩
    rw [writings, if_neg (by simpa using some_owner)] at written
    obtain ⟨owning, placed, rfl⟩ := List.mem_map.mp written
    exact (all owning placed).2 content member
  · intro untouched owning placed
    refine ⟨untouched.named, fun content member => untouched.kept content member _ ?_⟩
    rw [writings, if_neg (by simpa using some_owner)]
    exact List.mem_map_of_mem placed

theorem untouched_root_iff {part : List Fragment} (quoted : AreQuoted part)
    (unnamed : owner ∉ textOf part) :
    [String.ofList (Text.Chars.collapse (textOf part))] = [String.ofList (textOf (spaced part))] ↔
      Untouched [] part := by
  rw [List.singleton_inj, String.ofList_inj, collapse_eq_iff quoted]
  constructor
  · exact fun same => ⟨fun named => absurd named unnamed, by simpa [writings] using same⟩
  · exact fun untouched content member => untouched.kept content member content (by simp [writings])

/-- A key that mentions the owner has a part that does, if it is cut as its text is. -/
theorem exists_part_of_mem {key : List Fragment} (alike : CutsAlike 0 0 key)
    (named : owner ∈ textOf key) :
    ∃ part ∈ parts key, owner ∈ textOf part := by
  have shown : Text.isBlank owner = false := by decide
  obtain ⟨piece, member, inside⟩ := (mem_cut_iff (by decide : owner ≠ ',')).mpr named
  rw [cut_textOf alike] at member
  obtain ⟨part, listed, rfl⟩ := List.mem_map.mp member
  obtain ⟨fragment, within, written⟩ := List.mem_flatMap.mp inside
  have solid : isGap fragment = false := by
    cases fragment with
    | plain c => exact List.mem_singleton.mp written ▸ shown
    | string content => rfl
  refine ⟨part, List.mem_filter.mpr ⟨listed, ?_⟩, inside⟩
  rw [List.all_eq_false.mpr ⟨fragment, within, by simp [solid]⟩]
  rfl

theorem areQuoted_of_mem_parts {key : List Fragment} (quoted : AreQuoted key) :
    ∀ part ∈ parts key, AreQuoted part :=
  fun _ member content inside =>
    quoted content (mem_of_mem_cut (List.mem_filter.mp member).1 inside)

section Outcome

variable {owners : List String} {key : String} {fragments : List Fragment}

/-- Below owners a key is never refused. -/
theorem nest?_below_iff (some_owner : owners ≠ [])
    (unquoted : ∀ owning ∈ owners, Unquoted owning.toList) (spelled : textOf fragments = key.toList)
    (quoted : AreQuoted fragments) :
    Selector.nest? owners key = nest? owners fragments ↔
      CutsAlike 0 0 fragments ∧ ∀ part ∈ parts fragments, Untouched owners part := by
  obtain ⟨first, others, rfl⟩ := List.exists_cons_of_ne_nil some_owner
  have outcome : nest? (first :: others) fragments = some (means
      (fun part => (first :: others).map fun owning => String.ofList (combine owning.toList part))
      (cut 0 fragments)) := rfl
  have comparable := comparable_below first others (unquoted first List.mem_cons_self)
  rw [nest?_of_owners some_owner, outcome, Option.some.injEq, ← spelled,
    comparable.makes_eq_means_iff quoted]
  apply and_congr_right
  intro _
  apply forall₂_congr
  intro part member
  exact untouched_below_iff some_owner unquoted (areQuoted_of_mem_parts quoted part member)

/-- Without owners a key that mentions one outside of strings is refused. -/
theorem nest?_of_named (spelled : textOf fragments = key.toList) (named : plain owner ∈ fragments) :
    Selector.nest? [] key = none ∧ nest? [] fragments = none := by
  have named_text : owner ∈ key.toList :=
    spelled ▸ List.mem_flatMap.mpr ⟨_, named, List.mem_singleton_self owner⟩
  rw [nest?_nil, if_pos named_text, nest?, if_pos List.isEmpty_nil, if_pos named]
  exact ⟨rfl, rfl⟩

/-- Without owners a key should be refused for no other reason. -/
theorem nest?_root_iff (spelled : textOf fragments = key.toList) (quoted : AreQuoted fragments)
    (unnamed : plain owner ∉ fragments) : Selector.nest? [] key = nest? [] fragments ↔
      CutsAlike 0 0 fragments ∧ ∀ part ∈ parts fragments, Untouched [] part := by
  rw [nest?_nil, nest?, if_pos List.isEmpty_nil, if_neg unnamed, ← spelled]
  by_cases named : owner ∈ textOf fragments
  · rw [if_pos named]
    simp only [reduceCtorEq, false_iff]
    rintro ⟨alike, untouched⟩
    obtain ⟨part, member, inside⟩ := exists_part_of_mem alike named
    have plain_part := (untouched part member).named inside
    exact unnamed (mem_of_mem_cut (List.mem_filter.mp member).1 plain_part)
  · have outcome : (parts fragments).map (fun part => String.ofList (textOf (spaced part))) =
        means (fun part => [String.ofList (textOf (spaced part))]) (cut 0 fragments) :=
          List.map_eq_flatMap
    rw [if_neg named, outcome, Option.some.injEq, comparable_root.makes_eq_means_iff quoted]
    apply and_congr_right
    intro _
    apply forall₂_congr
    intro part member
    apply untouched_root_iff (areQuoted_of_mem_parts quoted part member)
    intro inside
    obtain ⟨fragment, listed, written⟩ := List.mem_flatMap.mp inside
    have whole := mem_of_mem_cut (List.mem_filter.mp member).1 listed
    exact named (List.mem_flatMap.mpr ⟨fragment, whole, written⟩)

end Outcome

theorem infix_textOf {content : List Char} {fragments : List Fragment}
    (member : string content ∈ fragments) :
    content <:+: textOf fragments := by
  obtain ⟨front, back, rfl⟩ := List.append_of_mem member
  exact ⟨textOf front, textOf back, by simp [text]⟩

theorem infix_combine {owning content : List Char} {part : List Fragment}
    (member : string content ∈ part) :
    content <:+: combine owning part := by
  apply infix_textOf
  rw [string_mem_spaced]
  split
  · exact string_mem_fill.mpr member
  · exact List.mem_append_right _ (List.mem_cons_of_mem _ member)

/-- Characters that make no difference in a string, but for blanks. -/
def isInert (c : Char) : Bool := c ≠ ',' && c ≠ owner && !isOpening c && !isClosing c

theorem whole_of_inert (depth : Nat) {content : List Char}
    (inert : ∀ c ∈ content, isInert c = true) :
    Whole depth content ∧ depthFrom depth content = depth := by
  induction content with
  | nil => exact ⟨trivial, rfl⟩
  | cons c rest ih =>
    obtain ⟨own, others⟩ := List.forall_mem_cons.mp inert
    obtain ⟨⟨⟨comma, -⟩, opening⟩, closing⟩ := by
      simpa only [isInert, Bool.and_eq_true, decide_eq_true_eq, Bool.not_eq_true'] using own
    have level : Selector.depthAfter depth c = depth := by
      simp only [isOpening, isClosing, Bool.or_eq_false_iff,
        decide_eq_false_iff_not] at opening closing
      simp [Selector.depthAfter, opening, closing]
    rw [depthFrom_cons, level]
    exact ⟨⟨fun named => absurd named comma, level.symm ▸ (ih others).1⟩, (ih others).2⟩

theorem cutsAlike_of_inert {key : List Fragment}
    (inert : ∀ content, string content ∈ key → ∀ c ∈ content, isInert c = true) (depth : Nat) :
    CutsAlike depth depth key := by
  induction key generalizing depth with
  | nil => trivial
  | cons fragment rest ih =>
    have others := ih fun content member => inert content (List.mem_cons_of_mem _ member)
    cases fragment with
    | plain c => exact ⟨fun _ => Iff.rfl, others _⟩
    | string content =>
      obtain ⟨whole, level⟩ := whole_of_inert depth (inert content List.mem_cons_self)
      refine ⟨whole, ?_⟩
      rw [level]
      exact others depth

theorem untouched_of_inert (owners : List String) {part : List Fragment}
    (inert : ∀ content, string content ∈ part → ∀ c ∈ content, isInert c = true)
    (collapsed : ∀ content, string content ∈ part → Text.Chars.collapse content = content) :
    Untouched owners part := by
  have unnamed (content : List Char) (member : string content ∈ part) : owner ∉ content := by
    intro named
    have never := inert content member owner named
    revert never
    decide
  constructor
  · intro named
    obtain ⟨fragment, member, written⟩ := List.mem_flatMap.mp named
    cases fragment with
    | plain c => exact List.mem_singleton.mp written ▸ member
    | string content => exact absurd written (unnamed content member)
  · intro content member text written
    have same : text = content := by
      rw [writings] at written
      split at written
      · exact List.mem_singleton.mp written
      · obtain ⟨owning, -, rfl⟩ := List.mem_map.mp written
        exact replaceChar_of_not_mem (unnamed content member)
    rw [same, collapsed content member]

/-- Strings without commas, brackets, owners and runs of blanks are safe in keys. -/
theorem nest?_of_inert {owners : List String} {key : String} {fragments : List Fragment}
    (unquoted : ∀ owning ∈ owners, Unquoted owning.toList)
    (found : read? key.toList = some fragments)
    (inert : ∀ content, string content ∈ fragments → ∀ c ∈ content, isInert c = true)
    (collapsed : ∀ content, string content ∈ fragments → Text.Chars.collapse content = content) :
    Selector.nest? owners key = nest? owners fragments := by
  obtain ⟨spelled, quoted⟩ := of_read? found
  have untouched : ∀ part ∈ parts fragments, Untouched owners part := by
    intro part member
    have inside {content : List Char} (listed : string content ∈ part) :
        string content ∈ fragments :=
      mem_of_mem_cut (List.mem_filter.mp member).1 listed
    exact untouched_of_inert owners (fun content listed => inert content (inside listed))
      fun content listed => collapsed content (inside listed)
  have alike := cutsAlike_of_inert inert 0
  by_cases none_left : owners = []
  · subst none_left
    by_cases named : plain owner ∈ fragments
    · obtain ⟨refused, refused_key⟩ := nest?_of_named spelled named
      rw [refused, refused_key]
    · exact (nest?_root_iff spelled quoted named).mpr ⟨alike, untouched⟩
  · exact (nest?_below_iff none_left unquoted spelled quoted).mpr ⟨alike, untouched⟩

/-- The selectors of a key are as they should be just if its strings make no difference to where it
is cut, and are left as they are in each part. What they should be shows each string of a part. -/
theorem nest?_eq_iff {owners : List String} {key : String} {fragments : List Fragment}
    (unquoted : ∀ owning ∈ owners, Unquoted owning.toList)
    (found : read? key.toList = some fragments) :
    (Selector.nest? owners key = nest? owners fragments ↔
      (owners = [] ∧ plain owner ∈ fragments) ∨
        (CutsAlike 0 0 fragments ∧ ∀ part ∈ parts fragments, Untouched owners part)) ∧
      ∀ part content, string content ∈ part →
        content <:+: textOf (spaced part) ∧ ∀ owning, content <:+: combine owning part := by
  obtain ⟨spelled, quoted⟩ := of_read? found
  constructor
  · by_cases none_left : owners = []
    · subst none_left
      by_cases named : plain owner ∈ fragments
      · obtain ⟨refused, refused_key⟩ := nest?_of_named spelled named
        simp [refused, refused_key, named]
      · simp [nest?_root_iff spelled quoted named, named]
    · simp [nest?_below_iff none_left unquoted spelled quoted, none_left]
  · intro part content member
    exact ⟨infix_textOf (string_mem_spaced.mpr member), fun owning => infix_combine member⟩

/-- A comma behind a bracket in a string cuts the key, and an owner in a string stands for the one
that is missing in front. A comma in a string within brackets is safe. -/
theorem nest?_of_bracket_in_string :
    let cutting := "a[title=\"],\"]"
    let naming := "a[title=\"R&D\"]"
    let safe := "a[title=\"x, y\"], &:hover"
    ∃ cut_up named kept, read? cutting.toList = some cut_up ∧ read? naming.toList = some named ∧
      read? safe.toList = some kept ∧
      Selector.nest? ["&"] cutting = some ["& a[title=\"]", "& \"]"] ∧
      nest? ["&"] cut_up = some ["& a[title=\"],\"]"] ∧
      ¬ (CutsAlike 0 0 cut_up ∧ ∀ part ∈ parts cut_up, Untouched ["&"] part) ∧
      Selector.nest? ["&"] naming = some ["a[title=\"R&D\"]"] ∧
      nest? ["&"] named = some ["& a[title=\"R&D\"]"] ∧
      ¬ (CutsAlike 0 0 named ∧ ∀ part ∈ parts named, Untouched ["&"] part) ∧
      Selector.nest? ["&"] safe = some ["& a[title=\"x, y\"]", "&:hover"] ∧
      nest? ["&"] kept = Selector.nest? ["&"] safe ∧
      CutsAlike 0 0 kept ∧ ∀ part ∈ parts kept, Untouched ["&"] part := by
  intro cutting naming safe
  have unquoted : ∀ owning ∈ ["&"], Unquoted owning.toList :=
    List.forall_mem_singleton.mpr (by simp [Unquoted, isQuote])
  obtain ⟨cut_up, read_cutting⟩ :=
    Option.isSome_iff_exists.mp (by decide : (read? cutting.toList).isSome = true)
  obtain ⟨named, read_naming⟩ :=
    Option.isSome_iff_exists.mp (by decide : (read? naming.toList).isSome = true)
  obtain ⟨kept, read_safe⟩ :=
    Option.isSome_iff_exists.mp (by decide : (read? safe.toList).isSome = true)
  have made : Selector.nest? ["&"] cutting = some ["& a[title=\"]", "& \"]"] ∧
      Selector.nest? ["&"] naming = some ["a[title=\"R&D\"]"] ∧
      Selector.nest? ["&"] safe = some ["& a[title=\"x, y\"]", "&:hover"] := by
    decide +kernel
  have meant : (read? cutting.toList).bind (nest? ["&"]) = some ["& a[title=\"],\"]"] ∧
      (read? naming.toList).bind (nest? ["&"]) = some ["& a[title=\"R&D\"]"] ∧
      (read? safe.toList).bind (nest? ["&"]) = some ["& a[title=\"x, y\"]", "&:hover"] := by
    decide +kernel
  rw [read_cutting, read_naming, read_safe, Option.bind_some, Option.bind_some,
    Option.bind_some] at meant
  obtain ⟨made_cutting, made_naming, made_safe⟩ := made
  obtain ⟨meant_cutting, meant_naming, meant_safe⟩ := meant
  have cuts := (nest?_eq_iff unquoted read_cutting).1
  have names := (nest?_eq_iff unquoted read_naming).1
  have keeps := (nest?_eq_iff unquoted read_safe).1
  refine ⟨cut_up, named, kept, read_cutting, read_naming, read_safe, made_cutting, meant_cutting,
    ?_, made_naming, meant_naming, ?_, made_safe, meant_safe.trans made_safe.symm, ?_⟩
  · intro alike
    have same := cuts.mpr (.inr alike)
    rw [made_cutting, meant_cutting] at same
    revert same
    decide
  · intro alike
    have same := names.mpr (.inr alike)
    rw [made_naming, meant_naming] at same
    revert same
    decide
  · exact (keeps.mp (made_safe.trans meant_safe.symm)).resolve_left (by simp)

end Fragment

end AtomicCss.Selector
