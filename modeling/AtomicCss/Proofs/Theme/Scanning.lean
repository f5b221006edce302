import AtomicCss.Proofs.Text.ClassName
import AtomicCss.Theme.Reference

/-!
How references are read.

A name in a reference is as long as its characters go on. So a text is cut into the same pieces
wherever it stands, as long as a character follows that goes on no name; and a blank goes on none.
-/

namespace AtomicCss

namespace Text

/-- The closed ranges of the codes of blank characters. -/
def blankRanges : List (Nat × Nat) :=
  [(9, 13), (0x20, 0x20), (0x85, 0x85), (0xA0, 0xA0), (0x1680, 0x1680), (0x2000, 0x200A),
    (0x2028, 0x2028), (0x2029, 0x2029), (0x202F, 0x202F), (0x205F, 0x205F), (0x3000, 0x3000)]

theorem exists_blankRange {c : Char} (blank : isBlank c = true) :
    ∃ range ∈ blankRanges, range.1 ≤ c.toNat ∧ c.toNat ≤ range.2 := by
  simp only [isBlank, Bool.or_eq_true, Bool.and_eq_true, decide_eq_true_eq, beq_iff_eq,
    or_assoc] at blank
  have single (code : Nat) (listed : (code, code) ∈ blankRanges) (here : c.toNat = code) :
      ∃ range ∈ blankRanges, range.1 ≤ c.toNat ∧ c.toNat ≤ range.2 :=
    ⟨(code, code), listed, Nat.le_of_eq here.symm, Nat.le_of_eq here⟩
  rcases blank with here | here | here | here | here | here | here | here | here | here | here
  any_goals exact single _ (by decide) here
  · exact ⟨(9, 13), by decide, here⟩
  · exact ⟨(0x2000, 0x200A), by decide, here⟩

theorem isAlphanumeric_of_isBlank {c : Char} (blank : isBlank c = true) :
    isAlphanumeric c = false := by
  unfold isAlphanumeric
  split
  · cases letter : c.isAlphanum with
    | false => rfl
    | true =>
      have shown := AtomicIndex.isBlank_of_isPrefixChar (show Config.isPrefixChar c = true by
        simp [Config.isPrefixChar, letter])
      rw [blank] at shown
      cases shown
  · have apart : (alphanumericRanges.all fun letters => blankRanges.all fun blanks =>
        Nat.blt letters.2 blanks.1 || Nat.blt blanks.2 letters.1) = true := by
      decide +kernel
    obtain ⟨blanks, listed, low, high⟩ := exists_blankRange blank
    apply List.any_eq_false.mpr
    intro letters member inside
    have beside := List.all_eq_true.mp (List.all_eq_true.mp apart letters member) blanks listed
    simp only [Bool.or_eq_true, Bool.and_eq_true, Nat.blt_eq, decide_eq_true_eq] at beside inside
    omega

end Text

namespace Reference

/-- A text that goes on no name, whatever stands before it. -/
def Stops (cs : List Char) : Prop :=
  ∀ c ∈ cs.head?, Text.isAlphanumeric c = false ∧ c ≠ '-' ∧ c ≠ '_' ∧ c ≠ '.'

theorem stops_nil : Stops [] := by simp [Stops]

theorem stops_dollar (rest : List Char) : Stops ('$' :: rest) := by
  have plain : Text.isAlphanumeric '$' = false := by decide
  simp [Stops, plain]

theorem stops_of_isBlank {cs : List Char} (blank : ∀ c ∈ cs.head?, Text.isBlank c = true) :
    Stops cs := by
  intro c first
  refine ⟨Text.isAlphanumeric_of_isBlank (blank c first), ?_, ?_, ?_⟩
  all_goals
    rintro rfl
    have shown := blank _ first
    revert shown
    decide

theorem startsWithDigit_of_stops {cs : List Char} (stops : Stops cs) :
    startsWithDigit cs = false := by
  cases cs with
  | nil => rfl
  | cons c rest =>
    have plain := (stops c rfl).1
    rw [startsWithDigit]
    cases digit : c.isDigit with
    | false => rfl
    | true =>
      have low : c.toNat < 0x80 := by
        have high : c.toNat ≤ 57 := of_decide_eq_true ((Bool.and_eq_true _ _).mp digit).2
        omega
      simp [Text.isAlphanumeric, low, Char.isAlphanum, digit] at plain

theorem scanName_of_stops {cs : List Char} (stops : Stops cs) : scanName cs = ([], cs) := by
  cases cs with
  | nil => rfl
  | cons c rest =>
    obtain ⟨plain, dash, underscore, dot⟩ := stops c rfl
    simp [scanName, plain, dash, underscore, dot]

/-- What goes on no name does not change how the text before it is read. -/
theorem scanName_append {rest : List Char} (stops : Stops rest) (cs : List Char) :
    scanName (cs ++ rest) = ((scanName cs).1, (scanName cs).2 ++ rest) := by
  induction cs with
  | nil => exact scanName_of_stops stops
  | cons c cs ih =>
    have digits : startsWithDigit (cs ++ rest) = startsWithDigit cs := by
      cases cs with
      | nil => exact startsWithDigit_of_stops stops
      | cons d cs => rfl
    simp only [List.cons_append, scanName, digits, ih]
    split <;> rfl

theorem append_scanName (cs : List Char) : (scanName cs).1 ++ (scanName cs).2 = cs := by
  induction cs with
  | nil => rfl
  | cons c cs ih =>
    simp only [scanName]
    split
    · simp [ih]
    · rfl

/-- Whether all of a text is read as one name. -/
def IsReadable (cs : List Char) : Prop := scanName cs = (cs, [])

theorem isReadable_iff {cs : List Char} : IsReadable cs ↔ (scanName cs).2 = [] := by
  have whole := append_scanName cs
  constructor
  · intro readable
    rw [readable]
  · intro ended
    rw [ended, List.append_nil] at whole
    exact Prod.ext whole ended

theorem stops_parens (count : Nat) : Stops (List.replicate count ')') := by
  have plain : Text.isAlphanumeric ')' = false := by decide
  cases count with
  | zero => exact stops_nil
  | succ count => simp [Stops, List.replicate_succ, plain]

/-- A text is a readable one and closing parentheses behind it just if it is scanned as such. -/
theorem scanName_eq_parens {cs read : List Char} {count : Nat} :
    scanName cs = (read, List.replicate count ')') ↔
      cs = read ++ List.replicate count ')' ∧ IsReadable read := by
  have joined := scanName_append (stops_parens count) read
  constructor
  · intro scanned
    have whole := append_scanName cs
    rw [scanned] at whole
    rw [whole, scanned] at joined
    refine ⟨whole.symm, isReadable_iff.mpr ?_⟩
    exact List.append_left_eq_self.mp (Prod.mk.inj joined).2.symm
  · rintro ⟨rfl, readable⟩
    rw [joined, readable, List.nil_append]

theorem pieces_append {cs : List Char} (plain : '$' ∉ cs) (rest : List Char) :
    pieces (cs ++ rest) = cs.map .char ++ pieces rest := by
  induction cs with
  | nil => rfl
  | cons c cs ih =>
    obtain ⟨shown, plain⟩ := not_or.mp (mt List.mem_cons.mpr plain)
    rw [List.cons_append, pieces_char (Ne.symm shown), ih plain]
    rfl

theorem pieces_of_plain {cs : List Char} (plain : '$' ∉ cs) : pieces cs = cs.map .char := by
  have whole := pieces_append plain []
  rwa [List.append_nil, pieces, List.append_nil] at whole

/-- The start of a reference that is followed by no name. -/
theorem pieces_unread {rest : List Char} (single : rest.head? ≠ some '$')
    (scanned : (scanName rest).1 = []) : pieces ('$' :: rest) = .char '$' :: pieces rest := by
  rw [pieces]
  · split <;> simp_all
  · rintro other rfl
    exact single rfl

theorem head?_of_scanName {rest after name : List Char} {c : Char}
    (scanned : scanName rest = (c :: name, after)) : rest.head? ≠ some '$' := by
  intro first
  have stops : Stops rest := by
    intro d head
    obtain rfl : '$' = d := Option.some.inj (first.symm.trans head)
    exact stops_dollar [] '$' rfl
  simp [scanName_of_stops stops] at scanned

theorem pieces_implied {rest after name : List Char} {c : Char}
    (scanned : scanName rest = (c :: name, after)) (single : after.head? ≠ some '$') :
    pieces ('$' :: rest) = .implied (c :: name) :: pieces after := by
  rw [pieces]
  · split
    · simp_all
    · next found tail read =>
      have same := Prod.mk.inj (scanned.symm.trans read)
      exact absurd (congrArg List.head? same.2) single
    · simp_all
  · rintro other rfl
    exact head?_of_scanName scanned rfl

theorem pieces_implied_unread {rest after name : List Char} {c : Char}
    (scanned : scanName rest = (c :: name, '$' :: after)) (again : (scanName after).1 = []) :
    pieces ('$' :: rest) = .implied (c :: name) :: pieces ('$' :: after) := by
  rw [pieces]
  · split <;> simp_all
    split <;> simp_all
  · rintro other rfl
    exact head?_of_scanName scanned rfl

theorem pieces_scaled {rest after last scale name : List Char} {c d : Char}
    (scanned : scanName rest = (c :: scale, '$' :: after))
    (again : scanName after = (d :: name, last)) :
    pieces ('$' :: rest) = .scaled (c :: scale) (d :: name) :: pieces last := by
  rw [pieces]
  · split <;> simp_all
  · rintro other rfl
    exact head?_of_scanName scanned rfl

theorem plain_scanName {cs : List Char} (plain : '$' ∉ cs) : '$' ∉ (scanName cs).2 := by
  intro member
  apply plain
  rw [← append_scanName cs]
  exact List.mem_append_right _ member

theorem head?_append_ne {name : List Char} (named : name ≠ []) (plain : '$' ∉ name)
    (rest : List Char) :
    (name ++ rest).head? ≠ some '$' := by
  cases name with
  | nil => contradiction
  | cons c name =>
    intro first
    obtain rfl : c = '$' := Option.some.inj first
    exact plain List.mem_cons_self

section Plain

variable {name after : List Char} (name_plain : '$' ∉ name) (after_plain : '$' ∉ after)
  (named : name ≠ []) (stops : Stops after)

include name_plain after_plain named stops

/-- How a reference to a name alone is cut. -/
theorem pieces_name :
    ((scanName name).1 = [] ∧ .char '$' ∈ pieces ('$' :: (name ++ after))) ∨
      ((scanName name).1 ≠ [] ∧ pieces ('$' :: (name ++ after)) =
        .implied (scanName name).1 :: ((scanName name).2 ++ after).map .char) := by
  have scanned := scanName_append stops name
  have rest_plain : '$' ∉ (scanName name).2 ++ after := by
    simpa using ⟨plain_scanName name_plain, after_plain⟩
  cases read : (scanName name).1 with
  | nil =>
    rw [read] at scanned
    rw [pieces_unread (head?_append_ne named name_plain after) (congrArg Prod.fst scanned)]
    exact .inl ⟨rfl, List.mem_cons_self⟩
  | cons c rest =>
    rw [read] at scanned
    have single : ((scanName name).2 ++ after).head? ≠ some '$' :=
      fun first => rest_plain (List.mem_of_head? first)
    rw [pieces_implied scanned single, pieces_of_plain rest_plain]
    exact .inr ⟨List.cons_ne_nil _ _, rfl⟩

/-- How a reference to a scale and a name is cut: as one piece if the scale is read as it stands,
else as two; unless a dollar sign before something unreadable stands alone. -/
theorem pieces_reference {scale : List Char} (scale_plain : '$' ∉ scale) (scaled : scale ≠ []) :
    (IsReadable scale ∧ pieces ('$' :: (scale ++ '$' :: (name ++ after))) =
        .scaled scale (scanName name).1 :: ((scanName name).2 ++ after).map .char) ∨
      ((IsReadable scale → (scanName name).1 = []) ∧
        .char '$' ∈ pieces ('$' :: (scale ++ '$' :: (name ++ after)))) ∨
      (¬ IsReadable scale ∧ pieces ('$' :: (scale ++ '$' :: (name ++ after))) =
        .implied (scanName scale).1 :: ((scanName scale).2.map .char ++
          .implied (scanName name).1 :: ((scanName name).2 ++ after).map .char)) := by
  have scanned := scanName_append (stops_dollar (name ++ after)) scale
  have behind := pieces_name name_plain after_plain named stops
  cases read : (scanName scale).1 with
  | nil =>
    rw [read] at scanned
    rw [pieces_unread (head?_append_ne scaled scale_plain _) (congrArg Prod.fst scanned)]
    refine .inr (.inl ⟨fun readable => ?_, List.mem_cons_self⟩)
    rw [readable] at read
    exact absurd read scaled
  | cons c scale_rest =>
    rw [read] at scanned
    cases unread : (scanName scale).2 with
    | nil =>
      have readable := isReadable_iff.mpr unread
      rw [unread, List.nil_append] at scanned
      obtain rfl : scale = c :: scale_rest := by rw [← read, readable]
      have again := scanName_append stops name
      cases first : (scanName name).1 with
      | nil =>
        rw [first] at again
        rcases behind with ⟨-, alone⟩ | ⟨some_name, -⟩
        · rw [pieces_implied_unread scanned (congrArg Prod.fst again)]
          exact .inr (.inl ⟨fun _ => rfl, List.mem_cons_of_mem _ alone⟩)
        · exact absurd first some_name
      | cons d name_rest =>
        rw [first] at again
        have rest_plain : '$' ∉ (scanName name).2 ++ after := by
          simpa using ⟨plain_scanName name_plain, after_plain⟩
        rw [pieces_scaled scanned again, pieces_of_plain rest_plain]
        exact .inl ⟨readable, rfl⟩
    | cons d unread_rest =>
      have unreadable : ¬ IsReadable scale := by
        rw [isReadable_iff, unread]
        exact List.cons_ne_nil _ _
      have unread_plain := plain_scanName scale_plain
      rw [unread] at scanned unread_plain
      have single :=
        head?_append_ne (List.cons_ne_nil d unread_rest) unread_plain ('$' :: (name ++ after))
      rw [pieces_implied scanned single, pieces_append unread_plain]
      rcases behind with ⟨-, alone⟩ | ⟨-, rest⟩
      · refine .inr (.inl ⟨fun readable => absurd readable unreadable, ?_⟩)
        exact List.mem_cons_of_mem _ (List.mem_append_right _ alone)
      · rw [rest]
        exact .inr (.inr ⟨unreadable, rfl⟩)

end Plain

end Reference

end AtomicCss
