import AtomicCss.Config.Basic
import AtomicCss.Sheet.AtomicIndex

/-!
Generated class names.

Different numbers give different names, and no name holds a blank. So a text of names separated by
spaces can be read back.
-/

namespace AtomicCss

namespace Text.Base36

theorem getElem?_digits {value : Nat} (small : value < 36) :
    digits[value]? = some (digit value) := by
  have inside : value < digits.length := small
  rw [digit, List.getD_eq_getElem?_getD, List.getElem?_eq_getElem inside, Option.getD_some]

theorem digit_injective {first second : Nat} (left : first < 36) (right : second < 36)
    (same : digit first = digit second) : first = second := by
  have distinct : digits.Nodup := by decide
  apply (List.getElem?_inj left distinct).mp
  rw [getElem?_digits left, getElem?_digits right, same]

theorem encodeOnto_zero (written : List Char) : encodeOnto 0 written = written := by
  rw [encodeOnto, dif_pos rfl]

theorem encodeOnto_pos {value : Nat} (positive : value ≠ 0) (written : List Char) :
    encodeOnto value written = encodeOnto (value / 36) (digit (value % 36) :: written) := by
  rw [encodeOnto, dif_neg positive]

/-- Digits go before what is already written. -/
theorem encodeOnto_eq_append (value : Nat) (written : List Char) :
    encodeOnto value written = encodeOnto value [] ++ written := by
  induction value using Nat.strongRecOn generalizing written with
  | ind value ih =>
    by_cases zero : value = 0
    · simp [zero, encodeOnto_zero]
    · have smaller : value / 36 < value := by omega
      rw [encodeOnto_pos zero, encodeOnto_pos zero, ih _ smaller, ih _ smaller [_]]
      simp

theorem encodeOnto_eq_snoc {value : Nat} (positive : value ≠ 0) :
    encodeOnto value [] = encodeOnto (value / 36) [] ++ [digit (value % 36)] := by
  rw [encodeOnto_pos positive, encodeOnto_eq_append]

theorem encodeOnto_injective {first second : Nat}
    (same : encodeOnto first [] = encodeOnto second []) :
    first = second := by
  induction first using Nat.strongRecOn generalizing second with
  | ind first ih =>
    by_cases left : first = 0 <;> by_cases right : second = 0
    · rw [left, right]
    · rw [left, encodeOnto_zero, encodeOnto_eq_snoc right] at same
      simp at same
    · rw [right, encodeOnto_zero, encodeOnto_eq_snoc left] at same
      simp at same
    · rw [encodeOnto_eq_snoc left, encodeOnto_eq_snoc right] at same
      obtain ⟨front, last⟩ := List.append_inj' same rfl
      have quotient := ih (first / 36) (by omega) front
      have remainder :=
        digit_injective (Nat.mod_lt first (by decide)) (Nat.mod_lt second (by decide))
        (List.cons.inj last).1
      omega

theorem encode_injective {first second : Nat} (same : encode first = encode second) :
    first = second := by
  have zero_alone {value : Nat} (positive : value ≠ 0) : encodeOnto value [] ≠ ['0'] := by
    intro zero
    have split : encodeOnto (value / 36) [] ++ [digit (value % 36)] = [] ++ ['0'] :=
      (encodeOnto_eq_snoc positive).symm.trans zero
    obtain ⟨front, last⟩ := List.append_inj' split rfl
    have quotient : value / 36 = 0 := encodeOnto_injective (front.trans (encodeOnto_zero []).symm)
    have remainder : value % 36 = 0 := digit_injective (Nat.mod_lt value (by decide)) (by decide)
      (List.cons.inj last).1
    omega
  have spelled (value : Nat) :
      encode value = String.ofList (if value = 0 then ['0'] else encodeOnto value []) := by
    unfold encode
    split <;> rfl
  have chars := String.ofList_injective ((spelled first).symm.trans (same.trans (spelled second)))
  split at chars <;> split at chars
  · next left right => rw [left, right]
  · next right => exact absurd chars.symm (zero_alone right)
  · next left _ => exact absurd chars (zero_alone left)
  · exact encodeOnto_injective chars

theorem mem_encodeOnto {value : Nat} {c : Char} (member : c ∈ encodeOnto value []) :
    c ∈ digits := by
  induction value using Nat.strongRecOn with
  | ind value ih =>
    by_cases zero : value = 0
    · rw [zero, encodeOnto_zero] at member
      cases member
    · rw [encodeOnto_eq_snoc zero, List.mem_append, List.mem_singleton] at member
      rcases member with front | rfl
      · exact ih (value / 36) (by omega) front
      · exact List.mem_of_getElem? (getElem?_digits (Nat.mod_lt value (by decide)))

theorem mem_encode {value : Nat} {c : Char} (member : c ∈ (encode value).toList) : c ∈ digits := by
  unfold encode at member
  split at member
  · obtain rfl : c = '0' := by simpa using member
    decide
  · rw [String.toList_ofList] at member
    exact mem_encodeOnto member

end Text.Base36

namespace Text

/-- A text that is one word. -/
def IsWord (text : String) : Prop := text.toList ≠ [] ∧ ∀ c ∈ text.toList, isBlank c = false

theorem Chars.split_of_plain {word : List Char} (plain : ∀ c ∈ word, isBlank c = false) :
    split isBlank word = [word] := by
  induction word with
  | nil => rfl
  | cons c rest ih =>
    obtain ⟨shown, plain⟩ := List.forall_mem_cons.mp plain
    simp [split, shown, ih plain]

theorem Chars.split_append {word : List Char} (plain : ∀ c ∈ word, isBlank c = false)
    (rest : List Char) : split isBlank (word ++ ' ' :: rest) = word :: split isBlank rest := by
  induction word with
  | nil =>
    have blank : isBlank ' ' = true := by decide
    simp [split, blank]
  | cons c word ih =>
    obtain ⟨shown, plain⟩ := List.forall_mem_cons.mp plain
    simp [split, shown, ih plain]

/-- Words that are separated by spaces can be read back. -/
theorem words_intercalate {texts : List String} (each : ∀ text ∈ texts, IsWord text) :
    words (" ".intercalate texts) = texts := by
  have chars :
      Chars.words ([' '].intercalate (texts.map String.toList)) = texts.map String.toList := by
    induction texts with
    | nil => rfl
    | cons text rest ih =>
      obtain ⟨⟨shown, plain⟩, others⟩ := List.forall_mem_cons.mp each
      cases rest with
      | nil => simp [Chars.words, Chars.split_of_plain plain, shown]
      | cons next more =>
        have joined : [' '].intercalate ((text :: next :: more).map String.toList) =
            text.toList ++ ' ' :: [' '].intercalate ((next :: more).map String.toList) := by
          simp [List.intercalate]
        have inner := ih others
        rw [Chars.words] at inner ⊢
        rw [joined, Chars.split_append plain, List.filter_cons_of_pos (by simpa using shown), inner]
        rfl
  rw [words, String.toList_intercalate]
  have spaces : (" " : String).toList = [' '] := rfl
  rw [spaces, chars, List.map_map]
  simp

end Text

namespace AtomicIndex

theorem prefixed_injective {namePrefix first second : String}
    (same : Name.prefixed namePrefix first = Name.prefixed namePrefix second) : first = second := by
  unfold Name.prefixed at same
  split at same
  · exact same
  · exact String.append_right_inj _ |>.mp same

theorem classOf_injective {namePrefix : String} {first second : Nat}
    (same : classOf namePrefix first = classOf namePrefix second) : first = second :=
  Text.Base36.encode_injective (String.append_right_inj _ |>.mp (prefixed_injective same))

theorem isAlphanum_iff {c : Char} : c.isAlphanum = true ↔
    (65 ≤ c.toNat ∧ c.toNat ≤ 90) ∨ (97 ≤ c.toNat ∧ c.toNat ≤ 122) ∨
      (48 ≤ c.toNat ∧ c.toNat ≤ 57) := by
  have spelled : c.isAlphanum = (decide (65 ≤ c.toNat ∧ c.toNat ≤ 90) ||
      (decide (97 ≤ c.toNat) && decide (c.toNat ≤ 122)) ||
      (decide (48 ≤ c.toNat) && decide (c.toNat ≤ 57))) := rfl
  simp only [spelled, Bool.or_eq_true, Bool.and_eq_true, decide_eq_true_eq, or_assoc]

theorem isBlank_of_isPrefixChar {c : Char} (plain : Config.isPrefixChar c = true) :
    Text.isBlank c = false := by
  have codes : (65 ≤ c.toNat ∧ c.toNat ≤ 90) ∨ (97 ≤ c.toNat ∧ c.toNat ≤ 122) ∨
      (48 ≤ c.toNat ∧ c.toNat ≤ 57) ∨ c.toNat = 45 ∨ c.toNat = 95 := by
    simp only [Config.isPrefixChar, Bool.or_eq_true, beq_iff_eq, isAlphanum_iff] at plain
    rcases plain with (alphanumeric | rfl) | rfl
    · omega
    · decide
    · decide
  simp only [Text.isBlank, Bool.or_eq_false_iff, Bool.and_eq_false_iff, decide_eq_false_iff_not,
    beq_eq_false_iff_ne]
  omega

theorem isPrefixChar_tagged {tag : String} (plain : tag.toList.all Config.isPrefixChar = true)
    {number : Nat} {c : Char} (member : c ∈ (tag ++ Text.Base36.encode number).toList) :
    Config.isPrefixChar c = true := by
  rw [String.toList_append, List.mem_append] at member
  cases member with
  | inl start => exact List.all_eq_true.mp plain c start
  | inr digit =>
    have plain_digits : Text.Base36.digits.all Config.isPrefixChar = true := by decide
    exact List.all_eq_true.mp plain_digits c (Text.Base36.mem_encode digit)

/-- A generated name has no other characters than its prefix may have. -/
theorem isPrefixChar_prefixed {namePrefix name : String}
    (plain : namePrefix.toList.all Config.isPrefixChar = true)
    (plain_name : ∀ c ∈ name.toList, Config.isPrefixChar c = true) {c : Char}
    (member : c ∈ (Name.prefixed namePrefix name).toList) : Config.isPrefixChar c = true := by
  unfold Name.prefixed at member
  split at member
  · exact plain_name c member
  · rw [String.toList_append, String.toList_append, List.mem_append, List.mem_append] at member
    rcases member with (front | dash) | back
    · exact List.all_eq_true.mp plain c front
    · obtain rfl : c = '-' := by simpa using dash
      decide
    · exact plain_name c back

/-- Under a prefix that a configuration may have every class is one word. -/
theorem isWord_classOf {namePrefix : String}
    (plain : namePrefix.toList.all Config.isPrefixChar = true) (number : Nat) :
    Text.IsWord (classOf namePrefix number) := by
  have some_char : (classOf namePrefix number).toList ≠ [] := by
    rw [classOf, Name.prefixed]
    split <;> simp
  refine ⟨some_char, fun c member => isBlank_of_isPrefixChar ?_⟩
  exact isPrefixChar_prefixed plain (fun _ => isPrefixChar_tagged (by decide)) member

end AtomicIndex

end AtomicCss
