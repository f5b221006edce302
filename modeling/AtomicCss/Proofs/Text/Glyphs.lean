import AtomicCss.Proofs.Text.Escaping

/-!
How an escaped name is read, glyph by glyph.

A glyph is an escape or a character that stands for itself. Each character of a name is written as
one glyph, and no glyph runs on into the next one: a hexadecimal escape is closed by its own space,
and behind a backslash there is no hexadecimal digit otherwise.
-/

namespace AtomicCss.Name

/-- A character of a selector as it is written. -/
inductive Glyph where
  | plain (c : Char)
  /-- A backslash and hexadecimal digits, maybe with a space that closes them. -/
  | code (digits : List Char) (closed : Bool)
  /-- A backslash and any other character. -/
  | shielded (c : Char)
  deriving DecidableEq

namespace Glyph

/-- The number that hexadecimal digits spell. -/
def number (digits : List Char) : Nat :=
  digits.foldl (fun value c => 16 * value + (Text.Hex.digit? c).getD 0) 0

def value : Glyph → Char
  | .plain c | .shielded c => c
  | .code digits _ => Char.ofNat (number digits)

def source : Glyph → List Char
  | .plain c => [c]
  | .code digits closed => '\\' :: digits ++ if closed then [' '] else []
  | .shielded c => ['\\', c]

/-- The part of an escape that was read. -/
inductive Begun where
  | none
  | slash
  | code (digits : List Char)

def read : Begun → List Char → List Glyph
  | .none, [] | .slash, [] => []
  | .code digits, [] => [.code digits false]
  | .none, c :: cs => if c = '\\' then read .slash cs else .plain c :: read .none cs
  | .slash, c :: cs =>
    if (Text.Hex.digit? c).isSome then read (.code [c]) cs else .shielded c :: read .none cs
  | .code digits, c :: cs =>
    if digits.length < 6 ∧ (Text.Hex.digit? c).isSome then read (.code (digits ++ [c])) cs
    else if c = ' ' then .code digits true :: read .none cs
    else .code digits false :: if c = '\\' then read .slash cs else .plain c :: read .none cs

/-- The glyphs of a text. An escape takes up to six hexadecimal digits, and one space behind
them. -/
def glyphs (text : List Char) : List Glyph := read .none text

theorem number_concat (digits : List Char) (c : Char) :
    number (digits ++ [c]) = 16 * number digits + (Text.Hex.digit? c).getD 0 := by
  simp [number]

/-- The state of the reader of values at the same place. -/
def Begun.reading : Begun → Chars.Reading
  | .none => .plain
  | .slash => .slash
  | .code digits => .hex (number digits) (6 - digits.length)

theorem map_value_read (begun : Begun) (cs : List Char) :
    (read begun cs).map value = Chars.unescape begun.reading cs := by
  induction cs generalizing begun with
  | nil => cases begun <;> rfl
  | cons c cs ih =>
    cases begun with
    | none =>
      simp only [read, Begun.reading, Chars.unescape]
      split
      · exact ih .slash
      · rw [List.map_cons, ih .none]
        rfl
    | slash =>
      simp only [read, Begun.reading, Chars.unescape]
      cases digit : Text.Hex.digit? c with
      | none =>
        simp only [Option.isSome_none, Bool.false_eq_true, if_false, List.map_cons, ih .none]
        rfl
      | some found =>
        have started : number [c] = found := by simp [number, digit]
        simp only [Option.isSome_some, if_true, ih, Begun.reading, started, List.length_singleton]
    | code digits =>
      -- a character that no longer belongs to the escape
      have ended : (if c = ' ' then .code digits true :: read .none cs
          else .code digits false ::
            if c = '\\' then read .slash cs else .plain c :: read .none cs).map value =
          if c = ' ' then Char.ofNat (number digits) :: Chars.unescape .plain cs
          else if c = '\\' then Char.ofNat (number digits) :: Chars.unescape .slash cs
          else Char.ofNat (number digits) :: c :: Chars.unescape .plain cs := by
        split
        · rw [List.map_cons, ih .none]
          rfl
        · split
          · rw [List.map_cons, ih .slash]
            rfl
          · rw [List.map_cons, List.map_cons, ih .none]
            rfl
      simp only [read, Begun.reading]
      by_cases room : digits.length < 6
      · obtain ⟨more, left⟩ : ∃ more, 6 - digits.length = more + 1 := ⟨5 - digits.length, by omega⟩
        rw [left]
        cases digit : Text.Hex.digit? c with
        | none => simpa [Chars.unescape, digit] using ended
        | some found =>
          have next : 6 - (digits.length + 1) = more := by omega
          simp [Chars.unescape, digit, room, ih, Begun.reading, number_concat, next]
      · have none_left : 6 - digits.length = 0 := by omega
        simpa [Chars.unescape, none_left, room] using ended

/-- The glyph that a character of a name is written as, unless it is a digit at the beginning. -/
def ofChar (c : Char) : Glyph := if isPlain c then .plain c else .shielded c

theorem source_ofChar (c : Char) : (ofChar c).source = escapeChar c := by
  unfold ofChar escapeChar
  split <;> rfl

theorem glyphs_escapeChar (c : Char) (cs : List Char) :
    glyphs (escapeChar c ++ cs) = ofChar c :: glyphs cs := by
  unfold escapeChar ofChar
  split
  · next plain =>
    have unslashed : c ≠ '\\' := by
      rintro rfl
      revert plain
      decide
    rw [glyphs, List.singleton_append, read, if_neg unslashed, glyphs]
  · next special =>
    have unlettered : c.isAlphanum = false := by simp_all [isPlain]
    have slash : glyphs (['\\', c] ++ cs) = read .slash (c :: cs) := rfl
    rw [slash, read, Text.Hex.digit?_eq_none unlettered, if_neg (by simp), glyphs]

theorem glyphs_flatMap (cs : List Char) : glyphs (cs.flatMap escapeChar) = cs.map ofChar := by
  induction cs with
  | nil => rfl
  | cons c cs ih => rw [List.flatMap_cons, glyphs_escapeChar, ih, List.map_cons]

theorem glyphs_escapeDigit {c : Char} (digit : c.isDigit = true) (cs : List Char) :
    glyphs (escapeDigit c ++ cs) = .code ['3', c] true :: glyphs cs := by
  have three : Text.Hex.digit? '3' = some 3 := rfl
  have space : Text.Hex.digit? ' ' = none := rfl
  change read .none ('\\' :: '3' :: c :: ' ' :: cs) = _
  simp [read, three, Text.Hex.digit?_of_digit digit, space, glyphs]

theorem glyphs_dash (cs : List Char) : glyphs ('-' :: cs) = .plain '-' :: glyphs cs := rfl

/-- The glyphs that a name is written in. -/
theorem glyphs_escape (cs : List Char) :
    (∃ c rest, cs = '-' :: c :: rest ∧
        glyphs (Chars.escape cs) = .plain '-' :: .code ['3', c] true :: rest.map ofChar) ∨
      (∃ c rest, cs = c :: rest ∧
        glyphs (Chars.escape cs) = .code ['3', c] true :: rest.map ofChar) ∨
      Chars.startsName cs = true ∧ glyphs (Chars.escape cs) = cs.map ofChar := by
  rcases Chars.escape_cases cs with
    ⟨c, rest, digit, rfl, escaped⟩ | ⟨c, rest, digit, rfl, escaped⟩ | ⟨starts, escaped⟩
  · exact .inl ⟨c, rest, rfl,
      by rw [escaped, glyphs_dash, glyphs_escapeDigit digit, glyphs_flatMap]⟩
  · exact .inr (.inl ⟨c, rest, rfl, by rw [escaped, glyphs_escapeDigit digit, glyphs_flatMap]⟩)
  · exact .inr (.inr ⟨starts, by rw [escaped, glyphs_flatMap]⟩)

theorem plain_of_mem_map {c : Char} {cs : List Char} (member : .plain c ∈ cs.map ofChar) :
    isPlain c = true := by
  obtain ⟨d, -, written⟩ := List.mem_map.mp member
  unfold ofChar at written
  split at written
  · next plain =>
    obtain rfl := Glyph.plain.inj written
    exact plain
  · cases written

theorem plain_of_mem_escape {c : Char} {cs : List Char}
    (member : .plain c ∈ glyphs (Chars.escape cs)) :
    isPlain c = true := by
  rcases glyphs_escape cs with ⟨d, rest, -, written⟩ | ⟨d, rest, -, written⟩ | ⟨-, written⟩
  · rw [written] at member
    simp only [List.mem_cons, Glyph.plain.injEq, reduceCtorEq, false_or] at member
    rcases member with rfl | later
    · rfl
    · exact plain_of_mem_map later
  · rw [written] at member
    simp only [List.mem_cons, reduceCtorEq, false_or] at member
    exact plain_of_mem_map member
  · exact plain_of_mem_map (written ▸ member)

/-- The glyphs of an escaped name are all of its text. -/
theorem flatMap_source_escape (cs : List Char) :
    (glyphs (Chars.escape cs)).flatMap source = Chars.escape cs := by
  have chars (cs : List Char) : (cs.map ofChar).flatMap source = cs.flatMap escapeChar := by
    induction cs with
    | nil => rfl
    | cons c cs ih => rw [List.map_cons, List.flatMap_cons, ih, source_ofChar, List.flatMap_cons]
  have digit (c : Char) : source (.code ['3', c] true) = escapeDigit c := rfl
  rcases Chars.escape_cases cs with
    ⟨c, rest, digits, rfl, escaped⟩ | ⟨c, rest, digits, rfl, escaped⟩ | ⟨-, escaped⟩
  · rw [escaped, glyphs_dash, glyphs_escapeDigit digits, glyphs_flatMap, List.flatMap_cons,
      List.flatMap_cons, chars, digit]
    rfl
  · rw [escaped, glyphs_escapeDigit digits, glyphs_flatMap, List.flatMap_cons, chars, digit]
  · rw [escaped, glyphs_flatMap, chars]

/-- A character that is written as itself. -/
theorem eq_of_ofChar {c d : Char} (written : ofChar c = .plain d) : c = d := by
  unfold ofChar at written
  split at written
  · exact Glyph.plain.inj written
  · cases written

/-- No digit stands unescaped where a name would begin with it. -/
theorem not_isDigit_of_glyphs {c : Char} {rest : List Glyph} (cs : List Char) :
    (glyphs (Chars.escape cs) = .plain c :: rest → c.isDigit = false) ∧
      (glyphs (Chars.escape cs) = .plain '-' :: .plain c :: rest → c.isDigit = false) := by
  rcases glyphs_escape cs with ⟨d, others, -, written⟩ | ⟨d, others, -, written⟩ | ⟨starts, written⟩
  · rw [written]
    constructor
    · intro same
      obtain rfl : '-' = c := Glyph.plain.inj (List.cons.inj same).1
      rfl
    · simp
  · rw [written]
    simp
  · rw [written]
    constructor
    · intro same
      obtain ⟨d, others, rfl, first, -⟩ := List.map_eq_cons_iff.mp same
      obtain rfl := eq_of_ofChar first
      by_cases dash : d = '-'
      · subst dash
        rfl
      · rw [Chars.startsName_cons dash] at starts
        simpa using starts
    · intro same
      obtain ⟨d, others, rfl, first, later⟩ := List.map_eq_cons_iff.mp same
      obtain ⟨e, others, rfl, second, -⟩ := List.map_eq_cons_iff.mp later
      obtain rfl := eq_of_ofChar first
      obtain rfl := eq_of_ofChar second
      simpa [Chars.startsName] using starts

end Glyph

/-- An escaped name reads back as the name, glyph by glyph. What stands unescaped in it is a letter
or digit of ASCII, a dash, an underscore or not ASCII at all, and no digit where the name begins. -/
theorem glyphs_of_escaped (name : String) :
    let written := Glyph.glyphs (escape name).toList
    (written.flatMap Glyph.source = (escape name).toList ∧ written.map Glyph.value = name.toList ∧
        unescape (escape name) = name) ∧
      (∀ c, .plain c ∈ written → c.isAlphanum = true ∨ c = '-' ∨ c = '_' ∨ 0x80 ≤ c.toNat) ∧
      ∀ c rest, (written = .plain c :: rest → c.isDigit = false) ∧
        (written = .plain '-' :: .plain c :: rest → c.isDigit = false) := by
  intro written
  have chars : (escape name).toList = Chars.escape name.toList := String.toList_ofList
  have glyphs : written = Glyph.glyphs (Chars.escape name.toList) := congrArg Glyph.glyphs chars
  refine ⟨⟨?_, ?_, (spells_escape name).reads⟩, ?_, ?_⟩
  · rw [glyphs, chars, Glyph.flatMap_source_escape]
  · rw [glyphs, Glyph.glyphs, Glyph.map_value_read]
    exact Chars.unescape_escape name.toList
  · intro c member
    have plain := Glyph.plain_of_mem_escape (glyphs ▸ member)
    simpa [isPlain, or_assoc] using plain
  · intro c rest
    rw [glyphs]
    exact Glyph.not_isDigit_of_glyphs name.toList

end AtomicCss.Name
