import AtomicCss.Proofs.Config.Validity
import AtomicCss.Proofs.Keyed
import AtomicCss.Proofs.Text.ClassName
import AtomicCss.Rule.Atomic
import Mathlib.Data.List.TakeWhile

/-!
Breakpoints in the at-rules of a rule.

A breakpoint key drops all its leading `@`, and what is left is looked up. So a key comes to the
media query of its breakpoint exactly if the name of the breakpoint does not start with another `@`.
A media query is ranked by its place, however many at-rules stand around it, and shown without
blanks at its ends.
-/

namespace AtomicCss

/-- In a list that repeats no image an item is found where it stands. -/
theorem findIdx?_of_nodup {α β : Type} [DecidableEq β] {image : α → β} {items : List α}
    (distinct : (items.map image).Nodup) {index : Nat} {item : α}
    (here : items[index]? = some item) :
    items.findIdx? (fun other => image other = image item) = some index := by
  obtain ⟨within, rfl⟩ := List.getElem?_eq_some_iff.mp here
  refine List.findIdx?_eq_some_iff_getElem.mpr ⟨within, by simp, ?_⟩
  intro earlier before same
  have images : (items.map image)[earlier]? = (items.map image)[index]? := by
    simp only [List.getElem?_map, List.getElem?_eq_getElem within,
      List.getElem?_eq_getElem (Nat.lt_trans before within)]
    simpa using same
  have places := (List.getElem?_inj (by simpa using Nat.lt_trans before within) distinct).mp images
  omega

namespace Text

theorem Chars.stripPrefix?_append (pattern rest : List Char) :
    stripPrefix? pattern (pattern ++ rest) = some rest := by
  induction pattern with
  | nil => rfl
  | cons c pattern ih => simpa [stripPrefix?] using ih

theorem stripPrefix?_append (pattern rest : String) :
    stripPrefix? pattern (pattern ++ rest) = some rest := by
  simp [stripPrefix?, Chars.stripPrefix?_append]

theorem Chars.trimEnd_append {front back : List Char} (blank : ∀ c ∈ back, isBlank c = true) :
    trimEnd (front ++ back) = trimEnd front := by
  have gone : back.reverse.dropWhile isBlank = [] :=
    List.dropWhile_eq_nil_iff.mpr fun c member => blank c (List.mem_reverse.mp member)
  simp [trimEnd, List.dropWhile_append, gone]

/-- Blanks at the end do not show in a trimmed text. -/
theorem Chars.trim_append {front back : List Char} (blank : ∀ c ∈ back, isBlank c = true) :
    trim (front ++ back) = trim front := by
  have gone : back.dropWhile isBlank = [] := List.dropWhile_eq_nil_iff.mpr blank
  unfold trim
  rw [List.dropWhile_append]
  split
  · next nothing => rw [gone, List.isEmpty_iff.mp nothing]
  · exact trimEnd_append blank

theorem Chars.exists_blank_end (cs : List Char) :
    ∃ blanks, cs = trimEnd cs ++ blanks ∧ ∀ c ∈ blanks, isBlank c = true := by
  refine ⟨(cs.reverse.takeWhile isBlank).reverse, ?_, ?_⟩
  · rw [trimEnd, ← List.reverse_append, List.takeWhile_append_dropWhile, List.reverse_reverse]
  · intro c member
    exact List.mem_takeWhile_imp (List.mem_reverse.mp member)

theorem Chars.trim_trimEnd (cs : List Char) : trim (trimEnd cs) = trim cs := by
  obtain ⟨blanks, split, blank⟩ := exists_blank_end cs
  conv_rhs => rw [split, trim_append blank]

theorem Chars.trimEnd_append_of_shown (front : List Char) {back : List Char}
    (shown : ∃ c ∈ back, isBlank c = false) : trimEnd (front ++ back) = front ++ trimEnd back := by
  have kept : back.reverse.dropWhile isBlank ≠ [] := by
    intro gone
    obtain ⟨c, member, plain⟩ := shown
    have blank := List.dropWhile_eq_nil_iff.mp gone c (List.mem_reverse.mpr member)
    rw [plain] at blank
    cases blank
  simp [trimEnd, List.dropWhile_append, kept]

/-- One word has no spacing to collapse. -/
theorem collapse_of_isWord {text : String} (word : IsWord text) : collapse text = text := by
  have one : Chars.words text.toList = [text.toList] := by
    simp [Chars.words, Chars.split_of_plain word.2, word.1]
  rw [collapse, Chars.collapse, one, List.intercalate_singleton, String.ofList_toList]

end Text

namespace AtRule

theorem toList_mediaPrefix : mediaPrefix.toList = '@' :: "media ".toList := rfl

/-- A media query is shown without the blanks at its ends. -/
theorem header_media {query : String} (shown : Text.allBlank query = false) :
    (Wrapper.ofText (mediaPrefix ++ query)).header = mediaPrefix ++ Text.trim query := by
  have inked : ∃ c ∈ query.toList, Text.isBlank c = false := by
    simpa [Text.allBlank] using shown
  have kept : Text.trim (mediaPrefix ++ query) =
      mediaPrefix ++ String.ofList (Text.Chars.trimEnd query.toList) := by
    have plain : Text.isBlank '@' = false := by decide
    rw [Text.trim, String.toList_append, toList_mediaPrefix, Text.Chars.trim, List.cons_append,
      List.dropWhile_cons_of_neg (by simp [plain]), ← List.cons_append,
      Text.Chars.trimEnd_append_of_shown _ inked, ← toList_mediaPrefix, String.ofList_append,
      String.ofList_toList]
  have trimmed : Text.trim (String.ofList (Text.Chars.trimEnd query.toList)) = Text.trim query := by
    rw [Text.trim, String.toList_ofList, Text.Chars.trim_trimEnd, Text.trim]
  simp only [Wrapper.ofText, kept, Text.stripPrefix?_append, Wrapper.header, trimmed]

section Ranks

variable {breakpoints : Breakpoints} {index : Nat} {name query : String}

theorem breakpointRank?_media (apart : (breakpoints.map (·.2)).Nodup)
    (declared : breakpoints[index]? = some (name, query)) :
    breakpointRank? breakpoints (mediaPrefix ++ query) = some (index + 1) := by
  simp [breakpointRank?, Text.stripPrefix?_append, findIdx?_of_nodup apart declared]

/-- At-rules rank as the highest of them. -/
theorem conditionalRank_cons (breakpoints : Breakpoints) (atRule : String) (inner : List String) :
    conditionalRank breakpoints (atRule :: inner) =
      max (conditionalRank breakpoints [atRule]) (conditionalRank breakpoints inner) := by
  have onto (rank : Nat) (ranks : List Nat) :
      ranks.foldl max rank = max rank (ranks.foldl max 0) := by
    conv_lhs => rw [← Nat.max_zero rank, List.foldl_assoc]
  unfold conditionalRank
  rw [List.filterMap_cons, List.filterMap_cons]
  cases breakpointRank? breakpoints atRule with
  | none => simp
  | some rank => simpa using onto rank _

theorem conditionalRank_media (apart : (breakpoints.map (·.2)).Nodup)
    (declared : breakpoints[index]? = some (name, query)) :
    conditionalRank breakpoints [mediaPrefix ++ query] = index + 1 := by
  simp [conditionalRank, breakpointRank?_media apart declared]

theorem query?_eq_some (distinct : breakpoints.names.Nodup) :
    breakpoints.query? name = some query ↔ (name, query) ∈ breakpoints := by
  rw [← Keyed.get?_eq_some distinct, Keyed.get?_eq_find?]
  rfl

theorem dropStart_key (name : String) :
    Text.dropStart (· == '@') ("@" ++ name) = String.ofList (name.toList.dropWhile (· == '@')) := by
  simp [Text.dropStart]

/-- The key of a breakpoint without a mark of its own comes to its media query. -/
theorem ofKey_of_unmarked (declared : breakpoints.query? name = some query) {c : Char}
    {rest : List Char} (starts : name.toList = c :: rest) (unmarked : c ≠ '@') :
    ofKey breakpoints ("@" ++ name) = mediaPrefix ++ query := by
  have dropped : name.toList.dropWhile (· == '@') = name.toList := by
    rw [starts, List.dropWhile_cons_of_neg (by simpa using unmarked)]
  rw [ofKey, dropStart_key, dropped, String.ofList_toList, declared]

/-- A name that starts with `@` is not what is looked up: its key comes to the media query of
another breakpoint, or stays the word that it is. -/
theorem ofKey_of_marked (named : Config.IsName name) (distinct : breakpoints.names.Nodup)
    (apart : (breakpoints.map (·.2)).Nodup) (declared : (name, query) ∈ breakpoints)
    {rest : List Char} (starts : name.toList = '@' :: rest) :
    ofKey breakpoints ("@" ++ name) ≠ mediaPrefix ++ query := by
  rw [ofKey, dropStart_key]
  split
  · next other found =>
    intro same
    obtain rfl : other = query := String.append_right_inj _ |>.mp same
    have entries := List.inj_on_of_nodup_map apart ((query?_eq_some distinct).mp found) declared rfl
    have chars : rest.dropWhile (· == '@') = '@' :: rest := by
      simpa [starts] using congrArg String.toList (Prod.ext_iff.mp entries).1
    have shorter := (rest.dropWhile_sublist (· == '@')).length_le
    rw [chars, List.length_cons] at shorter
    omega
  · intro same
    have word : ∀ c ∈ ("@" ++ name).toList, Text.isBlank c = false := by
      rw [String.toList_append]
      exact List.forall_mem_cons.mpr ⟨by decide, named.unblank⟩
    rw [Text.collapse_of_isWord ⟨by simp, word⟩] at same
    have blank : ' ' ∈ ("@" ++ name).toList := by
      rw [same, String.toList_append]
      exact List.mem_append_left _ (by decide)
    exact absurd (word ' ' blank) (by decide)

/-- A breakpoint key comes to the media query of its breakpoint unless the name starts with one more
`@`. -/
theorem ofKey_eq_media_iff (named : Config.IsName name) (distinct : breakpoints.names.Nodup)
    (apart : (breakpoints.map (·.2)).Nodup) (declared : (name, query) ∈ breakpoints) :
    ofKey breakpoints ("@" ++ name) = mediaPrefix ++ query ↔ Text.hasPrefix "@" name = false := by
  obtain ⟨c, rest, starts⟩ : ∃ c rest, name.toList = c :: rest :=
    List.exists_cons_of_ne_nil (by simpa using named.shown)
  have marked : Text.hasPrefix "@" name = decide (c = '@') := by
    simp [Text.hasPrefix, starts, List.isPrefixOf, Bool.beq_eq_decide_eq, eq_comm]
  rw [marked, decide_eq_false_iff_not]
  constructor
  · rintro same rfl
    exact ofKey_of_marked named distinct apart declared starts same
  · exact ofKey_of_unmarked ((query?_eq_some distinct).mpr declared) starts

end Ranks

end AtRule

end AtomicCss
