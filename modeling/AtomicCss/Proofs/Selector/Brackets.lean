import AtomicCss.Proofs.Selector.Owner

/-!
Where a list of selectors is cut.

A comma inside brackets does not cut, and a selector that was made of parts has no other commas. So
a list of such selectors is cut between selectors at most, as long as no part closes brackets that
others opened.
-/

namespace AtomicCss.Selector

open Text.Chars

def isOpening (c : Char) : Bool := c = '(' || c = '['

def isClosing (c : Char) : Bool := c = ')' || c = ']'

def depthFrom (depth : Nat) (cs : List Char) : Nat := cs.foldl depthAfter depth

/-- No comma of the text cuts it, if it stands inside of `depth` brackets. -/
def Whole (depth : Nat) : List Char → Prop
  | [] => True
  | c :: cs => (c = ',' → depth ≠ 0) ∧ Whole (depthAfter depth c) cs

@[simp] theorem depthFrom_nil (depth : Nat) : depthFrom depth [] = depth := rfl

@[simp] theorem depthFrom_cons (depth : Nat) (c : Char) (cs : List Char) :
    depthFrom depth (c :: cs) = depthFrom (depthAfter depth c) cs := rfl

theorem whole_append {depth : Nat} {front back : List Char} :
    Whole depth (front ++ back) ↔ Whole depth front ∧ Whole (depthFrom depth front) back := by
  induction front generalizing depth with
  | nil => simp [Whole]
  | cons c rest ih => simp [Whole, ih, and_assoc]

theorem depthAfter_mono {first second : Nat} (le : first ≤ second) (c : Char) :
    depthAfter first c ≤ depthAfter second c := by
  unfold depthAfter
  split
  · omega
  · split <;> omega

/-- What is not cut outside of brackets is not cut inside of any. -/
theorem Whole.mono {first second : Nat} (le : first ≤ second) {cs : List Char}
    (whole : Whole first cs) :
    Whole second cs := by
  induction cs generalizing first second with
  | nil => trivial
  | cons c rest ih =>
    refine ⟨fun comma => ?_, ih (depthAfter_mono le c) whole.2⟩
    have inside := whole.1 comma
    omega

theorem depthAfter_add (depth : Nat) (c : Char) :
    depth + (if isOpening c then 1 else 0) ≤ depthAfter depth c + if isClosing c then 1 else 0 := by
  unfold depthAfter isOpening isClosing
  split
  · omega
  · split <;> omega

/-- A text leads out of no more brackets than it closes in excess of those that it opens. -/
theorem depth_add_opening (depth : Nat) (cs : List Char) :
    depth + cs.countP isOpening ≤ depthFrom depth cs + cs.countP isClosing := by
  induction cs generalizing depth with
  | nil => simp
  | cons c rest ih =>
    have own := depthAfter_add depth c
    have others := ih (depthAfter depth c)
    rw [List.countP_cons, List.countP_cons, depthFrom_cons]
    omega

/-- A text with no comma outside of brackets that closes no more brackets than it opens. -/
structure Sealed (cs : List Char) : Prop where
  whole : Whole 0 cs
  closes : cs.countP isClosing ≤ cs.countP isOpening

theorem Sealed.whole_at {cs : List Char} (tight : Sealed cs) (depth : Nat) : Whole depth cs :=
  tight.whole.mono (Nat.zero_le depth)

theorem Sealed.le_depthFrom {cs : List Char} (tight : Sealed cs) (depth : Nat) :
    depth ≤ depthFrom depth cs := by
  have counts := depth_add_opening depth cs
  have closes := tight.closes
  omega

theorem plain_of_blank {c : Char} (blank : Text.isBlank c = true) :
    (∀ depth, depthAfter depth c = depth) ∧ c ≠ ',' ∧ isOpening c = false ∧
      isClosing c = false := by
  have differs (other : Char) (shown : Text.isBlank other = false) : c ≠ other := by
    rintro rfl
    simp [blank] at shown
  have open_round := differs '(' (by decide)
  have open_square := differs '[' (by decide)
  have close_round := differs ')' (by decide)
  have close_square := differs ']' (by decide)
  refine ⟨fun depth => ?_, differs ',' (by decide), ?_, ?_⟩
  · simp [depthAfter, open_round, open_square, close_round, close_square]
  · simp [isOpening, open_round, open_square]
  · simp [isClosing, close_round, close_square]

theorem whole_ink {depth : Nat} {cs : List Char} : Whole depth (ink cs) ↔ Whole depth cs := by
  induction cs generalizing depth with
  | nil => exact Iff.rfl
  | cons c rest ih =>
    rw [ink] at ih
    by_cases blank : Text.isBlank c = true
    · obtain ⟨level, other, -, -⟩ := plain_of_blank blank
      simp [ink, blank, Whole, level, other, ih]
    · simp [ink, blank, Whole, ih]

theorem countP_ink {counts : Char → Bool} (plain : ∀ c, Text.isBlank c = true → counts c = false)
    (cs : List Char) : (ink cs).countP counts = cs.countP counts := by
  rw [ink, List.countP_filter]
  apply List.countP_congr
  intro c _
  cases blank : Text.isBlank c with
  | false => simp
  | true => simp [plain c blank]

/-- Blanks decide nothing about brackets. -/
theorem Sealed.of_ink {first second : List Char} (tight : Sealed first)
    (same : ink first = ink second) :
    Sealed second := by
  have opening (cs : List Char) := countP_ink (fun _ blank => (plain_of_blank blank).2.2.1) cs
  have closing (cs : List Char) := countP_ink (fun _ blank => (plain_of_blank blank).2.2.2) cs
  constructor
  · rw [← whole_ink, ← same, whole_ink]
    exact tight.whole
  · rw [← closing, ← opening, ← same, closing, opening]
    exact tight.closes

section Combined

variable {owning part : List Char}

theorem replaceChar_cons (owning : List Char) (c : Char) (rest : List Char) :
    replaceChar owner owning (c :: rest) =
      (if c = owner then owning else [c]) ++ replaceChar owner owning rest := rfl

theorem whole_replaceChar (own : Sealed owning) {first second : Nat} (le : first ≤ second)
    (whole : Whole first part) : Whole second (replaceChar owner owning part) := by
  induction part generalizing first second with
  | nil => trivial
  | cons c rest ih =>
    rw [replaceChar_cons, whole_append]
    split
    · next named =>
      have level : depthAfter first c = first := by
        rw [named]
        rfl
      exact ⟨own.whole_at second, ih (Nat.le_trans le (own.le_depthFrom second)) (level ▸ whole.2)⟩
    · exact ⟨⟨(whole.mono le).1, trivial⟩, ih (depthAfter_mono le c) whole.2⟩

theorem closing_replaceChar (own : Sealed owning) :
    (replaceChar owner owning part).countP isClosing + part.countP isOpening ≤
      (replaceChar owner owning part).countP isOpening + part.countP isClosing := by
  have closes := own.closes
  induction part with
  | nil => simp [replaceChar]
  | cons c rest ih =>
    rw [replaceChar_cons, List.countP_append, List.countP_append, List.countP_cons,
      List.countP_cons]
    split
    · next named =>
      have plain : isOpening c = false ∧ isClosing c = false := by
        rw [named]
        decide
      simp only [plain, Bool.false_eq_true, if_false]
      omega
    · simp only [List.countP_singleton]
      omega

/-- What a part describes is not cut either. -/
theorem Sealed.combine (own : Sealed owning) (other : Sealed part) :
    Sealed (combine owning part) := by
  have closes := other.closes
  rw [Selector.combine]
  apply Sealed.of_ink _ (ink_collapse _).symm
  split
  · have counts := @closing_replaceChar owning part own
    exact ⟨whole_replaceChar own (Nat.le_refl 0) other.whole, by omega⟩
  · constructor
    · rw [whole_append]
      exact ⟨own.whole, by simp, other.whole_at _⟩
    · have plain : isOpening ' ' = false ∧ isClosing ' ' = false := by decide
      have closes_own := own.closes
      rw [List.countP_append, List.countP_append, List.countP_cons, List.countP_cons]
      simp only [plain, Bool.false_eq_true, if_false]
      omega

end Combined

/-- Cutting leaves pieces that cannot be cut further. -/
theorem whole_cut (depth : Nat) (cs : List Char) :
    ∃ piece pieces, cut depth cs = piece :: pieces ∧ Whole depth piece ∧
      ∀ other ∈ pieces, Whole 0 other := by
  induction cs generalizing depth with
  | nil => exact ⟨[], [], rfl, trivial, by simp⟩
  | cons c rest ih =>
    unfold cut
    split
    · next comma =>
      obtain ⟨piece, pieces, cuts, first, others⟩ := ih depth
      obtain ⟨-, rfl⟩ := comma
      refine ⟨[], _, rfl, trivial, ?_⟩
      rw [cuts]
      exact List.forall_mem_cons.mpr ⟨first, others⟩
    · next inside =>
      obtain ⟨piece, pieces, cuts, first, others⟩ := ih (depthAfter depth c)
      refine ⟨c :: piece, pieces, by rw [cuts], ?_, others⟩
      exact ⟨fun comma outside => inside ⟨comma, outside⟩, first⟩

theorem whole_of_mem_parts {cs part : List Char} (member : part ∈ parts cs) : Whole 0 part := by
  obtain ⟨trimmed, -⟩ := List.mem_filter.mp member
  obtain ⟨piece, inside, rfl⟩ := List.mem_map.mp trimmed
  obtain ⟨first, pieces, cuts, whole, others⟩ := whole_cut 0 cs
  rw [← whole_ink, ink_trim, whole_ink]
  rw [cuts] at inside
  rcases List.mem_cons.mp inside with rfl | later
  · exact whole
  · exact others piece later

/-- No part of the key closes more brackets than it opens. -/
def ClosesOwn (key : String) : Prop :=
  ∀ part ∈ parts key.toList, part.countP isClosing ≤ part.countP isOpening

theorem sealed_nest? {owners selectors : List String} {key : String}
    (own : ∀ owning ∈ owners, Sealed owning.toList) (closes : ClosesOwn key)
    (nested : nest? owners key = some selectors) :
    ∀ selector ∈ selectors, Sealed selector.toList := by
  have each {part : List Char} (inside : part ∈ parts key.toList) : Sealed part :=
    ⟨whole_of_mem_parts inside, closes part inside⟩
  intro selector member
  by_cases none_left : owners = []
  · simp only [nest?, none_left, List.isEmpty_nil, if_true] at nested
    split at nested
    · cases nested
    · obtain rfl := Option.some.inj nested
      obtain ⟨part, inside, rfl⟩ := List.mem_map.mp member
      rw [String.toList_ofList]
      exact (each inside).of_ink (ink_collapse _).symm
  · obtain ⟨part, inside, owning, placed, rfl⟩ := (mem_nest? none_left nested).mp member
    rw [String.toList_ofList]
    exact (own owning placed).combine (each inside)

theorem sealed_chain? {owners selectors keys : List String}
    (own : ∀ owning ∈ owners, Sealed owning.toList) (closes : ∀ key ∈ keys, ClosesOwn key)
    (nested : chain? owners keys = some selectors) :
    ∀ selector ∈ selectors, Sealed selector.toList := by
  induction keys generalizing owners with
  | nil =>
    obtain rfl := Option.some.inj nested
    exact own
  | cons key rest ih =>
    obtain ⟨first, others⟩ := List.forall_mem_cons.mp closes
    obtain ⟨inner, outer, below⟩ := Option.bind_eq_some_iff.mp nested
    exact ih (sealed_nest? own first outer) others below

theorem cut_append {depth : Nat} {front : List Char} (whole : Whole depth front)
    (back : List Char) :
    ∃ piece pieces, cut (depthFrom depth front) back = piece :: pieces ∧
      cut depth (front ++ back) = (front ++ piece) :: pieces := by
  induction front generalizing depth with
  | nil =>
    obtain ⟨piece, pieces, cuts, -⟩ := whole_cut depth back
    exact ⟨piece, pieces, cuts, cuts⟩
  | cons c rest ih =>
    obtain ⟨piece, pieces, behind, cuts⟩ := ih whole.2
    have inside : ¬ (c = ',' ∧ depth = 0) := fun ⟨comma, outside⟩ => whole.1 comma outside
    refine ⟨piece, pieces, behind, ?_⟩
    rw [List.cons_append, cut, if_neg inside, cuts]
    rfl

/-- A comma and a space in front of a list end a piece, or become part of the first. -/
theorem mentionsOwner_cut_comma {depth : Nat} {cs : List Char}
    (each : ∀ piece ∈ cut depth cs, mentionsOwner piece = true) :
    ∃ piece pieces, cut depth (',' :: ' ' :: cs) = piece :: pieces ∧
      ∀ other ∈ pieces, mentionsOwner other = true := by
  obtain ⟨first, later, cuts, -⟩ := whole_cut depth cs
  rw [cuts] at each
  obtain ⟨own, others⟩ := List.forall_mem_cons.mp each
  have spaced : cut depth (' ' :: cs) = (' ' :: first) :: later := by
    have level : depthAfter depth ' ' = depth := rfl
    simp [cut, level, cuts]
  have comma : depthAfter depth ',' = depth := rfl
  rw [cut, comma, spaced]
  split
  · refine ⟨[], _, rfl, List.forall_mem_cons.mpr ⟨?_, others⟩⟩
    rw [mentionsOwner_iff] at own ⊢
    exact List.mem_cons_of_mem _ own
  · exact ⟨_, _, rfl, others⟩

/-- Every piece of a list of selectors holds one of them, wherever the list is cut. -/
theorem mentionsOwner_cut {selectors : List (List Char)} (some_selector : selectors ≠ [])
    (whole : ∀ selector ∈ selectors, Whole 0 selector)
    (mention : ∀ selector ∈ selectors, mentionsOwner selector = true) (depth : Nat) :
    ∀ piece ∈ cut depth ([',', ' '].intercalate selectors), mentionsOwner piece = true := by
  induction selectors generalizing depth with
  | nil => exact absurd rfl some_selector
  | cons selector rest ih =>
    obtain ⟨whole_here, whole⟩ := List.forall_mem_cons.mp whole
    obtain ⟨named, mention⟩ := List.forall_mem_cons.mp mention
    have longer (more : List Char) : mentionsOwner (selector ++ more) = true := by
      rw [mentionsOwner_append, named, Bool.true_or]
    have cuts_at := cut_append (whole_here.mono (Nat.zero_le depth))
    cases rest with
    | nil =>
      obtain ⟨piece, pieces, behind, cuts⟩ := cuts_at []
      obtain ⟨rfl, rfl⟩ := List.cons.inj behind
      rw [List.append_nil] at cuts
      simp [List.intercalate, cuts, named]
    | cons next more =>
      have joined : [',', ' '].intercalate (selector :: next :: more) =
          selector ++ ',' :: ' ' :: [',', ' '].intercalate (next :: more) := by
        simp [List.intercalate]
      obtain ⟨piece, pieces, behind, cuts⟩ :=
        cuts_at (',' :: ' ' :: [',', ' '].intercalate (next :: more))
      obtain ⟨first, later, split_here, others⟩ := mentionsOwner_cut_comma
        (ih (List.cons_ne_nil _ _) whole mention (depthFrom depth selector))
      obtain ⟨-, rfl⟩ := List.cons.inj (behind.symm.trans split_here)
      rw [joined, cuts]
      exact List.forall_mem_cons.mpr ⟨longer piece, others⟩

/-- Every part of a list of selectors that mention the owner mentions it. -/
theorem mentionsOwner_parts {selectors : List String} (some_selector : selectors ≠ [])
    (whole : ∀ selector ∈ selectors, Whole 0 selector.toList) (mention : Mention true selectors) :
    ∀ part ∈ parts (", ".intercalate selectors).toList, mentionsOwner part = true := by
  intro part member
  obtain ⟨trimmed, -⟩ := List.mem_filter.mp member
  obtain ⟨piece, inside, rfl⟩ := List.mem_map.mp trimmed
  have separator : (", " : String).toList = [',', ' '] := rfl
  rw [String.toList_intercalate, separator] at inside
  rw [mentionsOwner_eq_of_ink (ink_trim piece)]
  apply mentionsOwner_cut (by simpa using some_selector) _ _ 0 piece inside
  · exact List.forall_mem_map.mpr whole
  · exact List.forall_mem_map.mpr mention

end AtomicCss.Selector
