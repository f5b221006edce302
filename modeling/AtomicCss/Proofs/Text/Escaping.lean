import AtomicCss.Proofs.Text.ClassName

/-!
Names as they are written.

Reading an escaped name back gives the name, whatever its characters are, and an escaped name begins
with no digit, nor with a dash and a digit. A generated name that is written as it stands is read
back as well, but it begins as its prefix does.
-/

namespace AtomicCss

namespace Text.Hex

theorem digit?_of_digit {c : Char} (digit : c.isDigit = true) : digit? c = some (c.toNat - 48) := by
  have shown : ('0' ≤ c && c ≤ '9') = true := digit
  rw [digit?, if_pos shown]
  rfl

theorem digit?_eq_none {c : Char} (special : c.isAlphanum = false) : digit? c = none := by
  have codes := mt AtomicIndex.isAlphanum_iff.mpr (by simpa using special)
  have outside (low high : Char) (unequal : ¬ (low.toNat ≤ c.toNat ∧ c.toNat ≤ high.toNat)) :
      ¬ (low ≤ c && c ≤ high) = true :=
    fun inside =>
      unequal ((Bool.and_eq_true _ _).mp inside |>.imp of_decide_eq_true of_decide_eq_true)
  have not_number : ¬ ('0' ≤ c && c ≤ '9') = true :=
    outside _ _ fun inside => codes (.inr (.inr inside))
  have not_lower : ¬ ('a' ≤ c && c ≤ 'f') = true :=
    outside _ _ fun ⟨low, high⟩ => codes (.inr (.inl ⟨low, Nat.le_trans high (by decide)⟩))
  have not_upper : ¬ ('A' ≤ c && c ≤ 'F') = true :=
    outside _ _ fun ⟨low, high⟩ => codes (.inl ⟨low, Nat.le_trans high (by decide)⟩)
  rw [digit?, if_neg not_number, if_neg not_lower, if_neg not_upper]

end Text.Hex

namespace Name

namespace Chars

/-- Whether characters may begin a name: no digit comes first, and none behind a dash that does. -/
def startsName : List Char → Bool
  | '-' :: c :: _ => !c.isDigit
  | c :: _ => !c.isDigit
  | [] => true

theorem unescape_cons {c : Char} (shown : c ≠ '\\') (cs : List Char) :
    unescape .plain (c :: cs) = c :: unescape .plain cs := by
  rw [unescape, if_neg shown]

theorem unescape_of_plain {cs : List Char} (plain : ∀ c ∈ cs, c ≠ '\\') :
    unescape .plain cs = cs := by
  induction cs with
  | nil => rfl
  | cons c cs ih =>
    obtain ⟨shown, others⟩ := List.forall_mem_cons.mp plain
    rw [unescape_cons shown, ih others]

theorem unescape_escapeDigit {c : Char} (digit : c.isDigit = true) (cs : List Char) :
    unescape .plain (escapeDigit c ++ cs) = c :: unescape .plain cs := by
  have low : 48 ≤ c.toNat := of_decide_eq_true ((Bool.and_eq_true _ _).mp digit).1
  have three : Text.Hex.digit? '3' = some 3 := rfl
  have space : Text.Hex.digit? ' ' = none := rfl
  have value : 16 * 3 + (c.toNat - 48) = c.toNat := by omega
  change unescape .plain ('\\' :: '3' :: c :: ' ' :: cs) = _
  simp only [unescape, three, Text.Hex.digit?_of_digit digit, space, value,
    Char.ofNat_toNat, if_true]

theorem unescape_escapeChar (c : Char) (cs : List Char) :
    unescape .plain (escapeChar c ++ cs) = c :: unescape .plain cs := by
  unfold escapeChar
  split
  · next plain =>
    apply unescape_cons
    rintro rfl
    revert plain
    decide
  · next special =>
    have unlettered : c.isAlphanum = false := by simp_all [isPlain]
    change unescape .plain ('\\' :: c :: cs) = _
    simp only [unescape, Text.Hex.digit?_eq_none unlettered, if_true]

theorem unescape_flatMap (cs : List Char) : unescape .plain (cs.flatMap escapeChar) = cs := by
  induction cs with
  | nil => rfl
  | cons c cs ih => rw [List.flatMap_cons, unescape_escapeChar, ih]

/-- The ways in which a name is escaped. -/
theorem escape_cases (cs : List Char) :
    (∃ c rest, c.isDigit = true ∧ cs = '-' :: c :: rest ∧
        escape cs = '-' :: (escapeDigit c ++ rest.flatMap escapeChar)) ∨
      (∃ c rest, c.isDigit = true ∧ cs = c :: rest ∧
        escape cs = escapeDigit c ++ rest.flatMap escapeChar) ∨
      startsName cs = true ∧ escape cs = cs.flatMap escapeChar := by
  unfold escape
  split
  · exact .inr (.inr ⟨rfl, rfl⟩)
  · next c rest =>
    split
    · next digit => exact .inl ⟨c, rest, digit, rfl, rfl⟩
    · next other => exact .inr (.inr ⟨by simpa [startsName] using other, rfl⟩)
  · next c rest single =>
    split
    · next digit => exact .inr (.inl ⟨c, rest, digit, rfl, rfl⟩)
    · next other =>
      refine .inr (.inr ⟨?_, rfl⟩)
      unfold startsName
      split <;> simp_all

theorem unescape_escape (cs : List Char) : unescape .plain (escape cs) = cs := by
  rcases escape_cases cs with ⟨c, rest, digit, rfl, escaped⟩ | ⟨c, rest, digit, rfl, escaped⟩ |
    ⟨-, escaped⟩
  · rw [escaped, unescape_cons (by decide), unescape_escapeDigit digit, unescape_flatMap]
  · rw [escaped, unescape_escapeDigit digit, unescape_flatMap]
  · rw [escaped, unescape_flatMap]

theorem startsName_cons {c : Char} (shown : c ≠ '-') (cs : List Char) :
    startsName (c :: cs) = !c.isDigit := by
  unfold startsName
  split <;> simp_all

/-- An escaped character begins with no digit if the character is none. -/
theorem escapeChar_eq_cons {c : Char} (other : c.isDigit = false) :
    ∃ d rest, escapeChar c = d :: rest ∧ d.isDigit = false ∧ (c ≠ '-' → d ≠ '-') := by
  unfold escapeChar
  split
  · exact ⟨c, [], rfl, other, id⟩
  · exact ⟨'\\', [c], rfl, rfl, fun _ => by decide⟩

theorem startsName_flatMap {cs : List Char} (starts : startsName cs = true) :
    startsName (cs.flatMap escapeChar) = true := by
  match cs with
  | [] => rfl
  | c :: rest =>
    rw [List.flatMap_cons]
    by_cases dash : c = '-'
    · subst dash
      match rest with
      | [] => rfl
      | c :: rest =>
        obtain ⟨d, escaped, begins, other, -⟩ :=
          escapeChar_eq_cons (by simpa [startsName] using starts)
        rw [List.flatMap_cons, begins]
        simpa [escapeChar, isPlain, startsName] using other
    · rw [startsName_cons dash] at starts
      obtain ⟨d, escaped, begins, other, shown⟩ := escapeChar_eq_cons (by simpa using starts)
      rw [begins, List.cons_append, startsName_cons (shown dash), other]
      rfl

theorem startsName_escape (cs : List Char) : startsName (escape cs) = true := by
  rcases escape_cases cs with
    ⟨c, rest, -, -, escaped⟩ | ⟨c, rest, -, -, escaped⟩ | ⟨starts, escaped⟩
  · rw [escaped]
    rfl
  · rw [escaped]
    rfl
  · rw [escaped]
    exact startsName_flatMap starts

/-- Behind a dash nothing decides how a name begins. -/
theorem startsName_append_dash {front : List Char} (shown : front ≠ []) (back : List Char) :
    startsName (front ++ '-' :: back) = startsName front := by
  match front with
  | [] => contradiction
  | [c] =>
    by_cases dash : c = '-'
    · subst dash
      rfl
    · rw [List.singleton_append, startsName_cons dash, startsName_cons dash]
  | c :: d :: rest =>
    by_cases dash : c = '-'
    · subst dash
      rfl
    · rw [List.cons_append, startsName_cons dash, startsName_cons dash]

end Chars

/-- A text that begins as a name may, and that reads back as the name. -/
structure Spells (written name : String) : Prop where
  starts : Chars.startsName written.toList = true
  reads : unescape written = name

theorem spells_escape (name : String) : Spells (escape name) name where
  starts := by
    rw [escape, String.toList_ofList]
    exact Chars.startsName_escape _
  reads := by
    rw [escape, unescape, String.toList_ofList, Chars.unescape_escape, String.ofList_toList]

theorem unescape_of_plain {name : String}
    (plain : ∀ c ∈ name.toList, Config.isPrefixChar c = true) : unescape name = name := by
  have shown : ∀ c ∈ name.toList, c ≠ '\\' := by
    rintro c member rfl
    have plain_slash := plain _ member
    revert plain_slash
    decide
  rw [unescape, Chars.unescape_of_plain shown, String.ofList_toList]

theorem startsName_prefixed {namePrefix name : String}
    (starts : Chars.startsName name.toList = true) :
    Chars.startsName (prefixed namePrefix name).toList = Chars.startsName namePrefix.toList := by
  unfold prefixed
  split
  · next empty =>
    rw [String.isEmpty_iff.mp empty, starts]
    rfl
  · next shown =>
    have some_char : namePrefix.toList ≠ [] := by simpa using shown
    have chars : (namePrefix ++ "-" ++ name).toList = namePrefix.toList ++ '-' :: name.toList := by
      simp
    rw [chars, Chars.startsName_append_dash some_char]

/-- A generated name spells itself just if its prefix begins as a name may. -/
theorem spells_prefixed {namePrefix tag : String}
    (plain : namePrefix.toList.all Config.isPrefixChar = true)
    (plain_tag : tag.toList.all Config.isPrefixChar = true)
    (starts : ∀ rest, Chars.startsName (tag.toList ++ rest) = true) (number : Nat) :
    unescape (prefixed namePrefix (tag ++ Text.Base36.encode number)) =
        prefixed namePrefix (tag ++ Text.Base36.encode number) ∧
      (Spells (prefixed namePrefix (tag ++ Text.Base36.encode number))
          (prefixed namePrefix (tag ++ Text.Base36.encode number)) ↔
        Chars.startsName namePrefix.toList = true) := by
  have reads : unescape (prefixed namePrefix (tag ++ Text.Base36.encode number)) = _ :=
    unescape_of_plain fun c =>
      AtomicIndex.isPrefixChar_prefixed plain fun _ => AtomicIndex.isPrefixChar_tagged plain_tag
  have begins : Chars.startsName (tag ++ Text.Base36.encode number).toList = true := by
    rw [String.toList_append]
    exact starts _
  refine ⟨reads, ?_⟩
  rw [← startsName_prefixed begins]
  exact ⟨Spells.starts, fun starts => ⟨starts, reads⟩⟩

end Name

end AtomicCss
