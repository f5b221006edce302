import AtomicCss.Command.Arguments
import AtomicCss.Proofs.Basic
import Mathlib.Data.List.Induction

/-!
The words of a command line: inputs, switches, and flags with their values, as they are spelled.

Words say nothing by where they stand but for the order among inputs and among values of one flag.
What they say can so be read off the words alone, before any reading of a line is looked at.
-/

namespace AtomicCss.Numeric

theorem natOfDigits_append (front back : List Char) :
    natOfDigits (front ++ back) =
      back.foldl (fun value digit => 10 * value + digitValue digit) (natOfDigits front) :=
  List.foldl_append

theorem natOfDigits_toDigits (zeros value : Nat) :
    natOfDigits (List.replicate zeros '0' ++ Nat.toDigits 10 value) = value := by
  have none_yet : natOfDigits (List.replicate zeros '0') = 0 := by
    induction zeros with
    | zero => rfl
    | succ zeros ih =>
      rw [List.replicate_succ', natOfDigits_append, ih]
      rfl
  rw [natOfDigits_append, none_yet]
  exact Nat.ofDigitChars_toDigits (by decide) (by decide)

theorem toDigits_digitValue {digit : Char} (valid : digit.isDigit = true) :
    Nat.toDigits 10 (digitValue digit) = [digit] ∧ digitValue digit < 10 := by
  rw [Char.isDigit_iff_toNat] at valid
  have small : digitValue digit < 10 := by
    simp only [digitValue, Char.reduceToNat] at valid ⊢
    omega
  refine ⟨?_, small⟩
  rw [Nat.toDigits_of_lt_base small]
  congr 1
  apply Char.toNat_inj.mp
  rw [Nat.toNat_digitChar_of_lt_ten small]
  simp only [digitValue, Char.reduceToNat] at valid ⊢
  omega

/-- Digits are zeros and the numeral of their value. -/
theorem exists_zeros {digits : List Char} (shown : digits ≠ [])
    (valid : ∀ digit ∈ digits, digit.isDigit = true) :
    ∃ zeros, digits = List.replicate zeros '0' ++ Nat.toDigits 10 (natOfDigits digits) := by
  induction digits using List.reverseRecOn with
  | nil => exact absurd rfl shown
  | append_singleton front digit ih =>
    obtain ⟨written, small⟩ := toDigits_digitValue (valid digit (by simp))
    have value : natOfDigits (front ++ [digit]) = 10 * natOfDigits front + digitValue digit :=
      natOfDigits_append front [digit]
    rw [value]
    by_cases first : front = []
    · subst first
      exact ⟨0, by simp [natOfDigits, written]⟩
    · obtain ⟨zeros, split⟩ := ih first fun other member => valid other (by simp [member])
      by_cases zero : natOfDigits front = 0
      · refine ⟨zeros + 1, ?_⟩
        rw [zero] at split ⊢
        rw [Nat.mul_zero, Nat.zero_add, written, List.replicate_succ', split]
        rfl
      · refine ⟨zeros, ?_⟩
        rw [← Nat.toDigits_append_toDigits (by decide) (Nat.pos_of_ne_zero zero) small, written,
          ← List.append_assoc, ← split]

end AtomicCss.Numeric

namespace AtomicCss.Command

open Numeric (natOfDigits)

/-- The number in decimal digits, behind zeros. -/
def numeral (zeros value : Nat) : List Char := List.replicate zeros '0' ++ Nat.toDigits 10 value

theorem isDigit_of_mem_numeral {zeros value : Nat} {digit : Char}
    (member : digit ∈ numeral zeros value) :
    digit.isDigit = true := by
  rcases List.mem_append.mp member with zero | written
  · rw [List.eq_of_mem_replicate zero]
    rfl
  · exact Nat.isDigit_of_mem_toDigits (by decide) (by decide) written

theorem numeral_ne_plus (zeros value : Nat) (rest : List Char) :
    numeral zeros value ≠ '+' :: rest := by
  intro same
  have digit : '+'.isDigit = true := isDigit_of_mem_numeral (same ▸ List.mem_cons_self)
  exact absurd digit (by decide)

theorem number?_eq_some {digits : List Char} {value : Nat} :
    (if digits.isEmpty || !digits.all Char.isDigit then none
      else if natOfDigits digits < UInt64.size then some (natOfDigits digits) else none) =
        some value ↔
      value < UInt64.size ∧ ∃ zeros, digits = numeral zeros value := by
  constructor
  · intro found
    split at found
    · cases found
    next valid =>
    split at found
    · next fits =>
      cases found
      simp only [Bool.or_eq_true, Bool.not_eq_true', not_or, List.isEmpty_iff, Bool.not_eq_false,
        List.all_eq_true] at valid
      exact ⟨fits, Numeric.exists_zeros valid.1 valid.2⟩
    · cases found
  · rintro ⟨fits, zeros, rfl⟩
    rw [numeral, Numeric.natOfDigits_toDigits, ← numeral, if_neg, if_pos fits]
    simp only [Bool.or_eq_true, Bool.not_eq_true', not_or, List.isEmpty_iff, Bool.not_eq_false,
      List.all_eq_true]
    exact ⟨by simp [numeral, Nat.toDigits_ne_nil],
      fun digit member => isDigit_of_mem_numeral member⟩

/-- Whether the text is the number in decimal digits, perhaps with zeros and a plus sign in
front. -/
def IsNumeral (text : String) (value : Nat) : Prop :=
  value < UInt64.size ∧
    ∃ zeros, text.toList = numeral zeros value ∨ text.toList = '+' :: numeral zeros value

theorem interval?_eq_some {text : String} {value : Nat} :
    interval? text = some value ↔ IsNumeral text value := by
  unfold interval? IsNumeral
  split
  · next digits start =>
    simp only [number?_eq_some, start, List.cons.injEq, true_and,
      (numeral_ne_plus _ _ _).symm, false_or]
  · next unsigned =>
    have apart : ∀ digits, text.toList ≠ '+' :: digits := unsigned
    simp only [number?_eq_some, apart, or_false]

/-- The spellings of a flag. -/
def Flag.spellings : Flag → List String
  | output => ["--out", "--output", "-o"]
  | classes => ["--classes"]
  | config => ["--config", "-c"]
  | ignore => ["--ignore", "-I"]
  | minify => ["--minify"]
  | poll => ["--poll"]
  | pollInterval => ["--poll-interval"]

theorem Flag.ofText?_eq_some {text : String} {flag : Flag} :
    Flag.ofText? text = some flag ↔ text ∈ flag.spellings := by
  constructor
  · intro found
    unfold Flag.ofText? at found
    split at found <;> cases found <;> decide
  · intro spelled
    cases flag <;> simp only [spellings, List.mem_cons, List.not_mem_nil, or_false] at spelled <;>
      rcases spelled with rfl | rfl | rfl <;> rfl

theorem Flag.ofText?_eq_none {text : String} :
    Flag.ofText? text = none ↔ ∀ flag : Flag, text ∉ flag.spellings := by
  simp only [← Flag.ofText?_eq_some, ← Option.eq_none_iff_forall_ne_some]

/-- The commands that take inputs. -/
inductive Verb where
  | scan
  | build
  | watch
  deriving DecidableEq, Repr

namespace Verb

def name : Verb → String
  | scan => "scan"
  | build => "build"
  | watch => "watch"

/-- The spellings of a flag that the command has. -/
def spellings : Verb → Flag → List String
  | scan, .ignore => ["--ignore", "-i", "-I"]
  | scan, _ => []
  | build, flag => if flag.watchOnly then [] else flag.spellings
  | watch, flag => flag.spellings

def watches : Verb → Bool
  | watch => true
  | _ => false

/-- Whether the text is no input of the command. Builds take not even the flags of a watch for
inputs. -/
def Reserves : Verb → String → Prop
  | scan, text => text ∈ spellings scan .ignore
  | _, text => ∃ flag : Flag, text ∈ flag.spellings

theorem mem_spellings {verb : Verb} (builds : verb ≠ scan) {flag : Flag} {spelling : String} :
    spelling ∈ verb.spellings flag ↔
      spelling ∈ flag.spellings ∧ (flag.watchOnly && !verb.watches) = false := by
  cases verb with
  | scan => exact absurd rfl builds
  | build => cases only : flag.watchOnly <;> simp [spellings, only, watches]
  | watch => simp [spellings, watches]

theorem reserves_iff {verb : Verb} (builds : verb ≠ scan) {text : String} :
    verb.Reserves text ↔ ∃ flag : Flag, text ∈ flag.spellings := by
  cases verb with
  | scan => exact absurd rfl builds
  | build => rfl
  | watch => rfl

theorem exists_flag {verb : Verb} {text : String} (reserved : verb.Reserves text) :
    (∃ flag : Flag, text ∈ verb.spellings flag) ∨
      verb = build ∧ ∃ flag : Flag, flag.watchOnly = true ∧ text ∈ flag.spellings := by
  cases verb with
  | scan => exact .inl ⟨.ignore, reserved⟩
  | watch => exact .inl reserved
  | build =>
    obtain ⟨flag, spelled⟩ := reserved
    cases only : flag.watchOnly with
    | false => exact .inl ⟨flag, by simp [spellings, only, spelled]⟩
    | true => exact .inr ⟨rfl, flag, only, spelled⟩

theorem mem_scan_spellings {flag : Flag} {spelling : String}
    (spelled : spelling ∈ scan.spellings flag) :
    flag = .ignore := by
  cases flag <;> first | rfl | cases spelled

instance (verb : Verb) (text : String) : Decidable (verb.Reserves text) :=
  match verb with
  | scan => inferInstanceAs (Decidable (text ∈ scan.spellings .ignore))
  | build | watch => decidable_of_iff ((Flag.ofText? text).isSome = true) <| by
      simp only [Reserves, Option.isSome_iff_exists, Flag.ofText?_eq_some]

end Verb

/-- A word of a command line, as it is spelled. -/
inductive Word where
  | input (text : String)
  | switch (flag : Flag) (spelling : String)
  | setting (flag : Flag) (spelling value : String)
  deriving DecidableEq, Repr

namespace Word

def texts : Word → List String
  | input text => [text]
  | switch _ spelling => [spelling]
  | setting _ spelling value => [spelling, value]

/-- Whether the command takes the word. A value may be any text. -/
def IsOf (verb : Verb) : Word → Prop
  | input text => ¬ verb.Reserves text
  | switch flag spelling => flag.takesValue = false ∧ spelling ∈ verb.spellings flag
  | setting flag spelling _ => flag.takesValue = true ∧ spelling ∈ verb.spellings flag

instance (verb : Verb) (word : Word) : Decidable (word.IsOf verb) :=
  match word with
  | input text => inferInstanceAs (Decidable (¬ verb.Reserves text))
  | switch flag spelling =>
    inferInstanceAs (Decidable (flag.takesValue = false ∧ spelling ∈ verb.spellings flag))
  | setting flag spelling _ =>
    inferInstanceAs (Decidable (flag.takesValue = true ∧ spelling ∈ verb.spellings flag))

/-- The inputs among the words. -/
def inputs (words : List Word) : List String :=
  words.filterMap fun
    | input text => some text
    | _ => none

/-- The values that the words give to a flag. -/
def values (flag : Flag) (words : List Word) : List String :=
  words.filterMap fun
    | setting other _ value => if other = flag then some value else none
    | _ => none

/-- Whether a word is the switch. -/
def uses (flag : Flag) (words : List Word) : Bool :=
  words.any fun
    | switch other _ => other = flag
    | _ => false

@[simp]
theorem inputs_append (front back : List Word) :
    inputs (front ++ back) = inputs front ++ inputs back :=
  List.filterMap_append

@[simp]
theorem values_append (flag : Flag) (front back : List Word) :
    values flag (front ++ back) = values flag front ++ values flag back :=
  List.filterMap_append

@[simp]
theorem uses_append (flag : Flag) (front back : List Word) :
    uses flag (front ++ back) = (uses flag front || uses flag back) :=
  List.any_append

@[simp]
theorem inputs_input (text : String) : inputs [input text] = [text] := rfl

@[simp]
theorem values_input (flag : Flag) (text : String) : values flag [input text] = [] := rfl

@[simp]
theorem uses_input (flag : Flag) (text : String) : uses flag [input text] = false := rfl

@[simp]
theorem inputs_map (texts : List String) : inputs (texts.map input) = texts := by
  simp [inputs, List.filterMap_map]

@[simp]
theorem values_map (flag : Flag) (texts : List String) : values flag (texts.map input) = [] := by
  simp [values]

@[simp]
theorem uses_map (flag : Flag) (texts : List String) : uses flag (texts.map input) = false := by
  simp [uses]

section Options

variable (flag other : Flag) (spelling text : String) (texts : List String)

@[simp]
theorem inputs_settings : inputs (texts.map (setting flag spelling)) = [] := by
  simp [inputs]

@[simp]
theorem values_settings :
    values flag (texts.map (setting other spelling)) = if other = flag then texts else [] := by
  by_cases same : other = flag <;> simp [values, List.filterMap_map, same]

@[simp]
theorem uses_settings : uses flag (texts.map (setting other spelling)) = false := by
  simp [uses]

@[simp]
theorem inputs_setting : inputs [setting flag spelling text] = [] := rfl

@[simp]
theorem values_setting :
    values flag [setting other spelling text] = if other = flag then [text] else [] := by
  by_cases same : other = flag <;> simp [values, same]

@[simp]
theorem uses_setting : uses flag [setting other spelling text] = false := rfl

@[simp]
theorem inputs_switch : inputs [switch flag spelling] = [] := rfl

@[simp]
theorem values_switch : values flag [switch other spelling] = [] := rfl

@[simp]
theorem uses_switch : uses flag [switch other spelling] = decide (other = flag) := by
  simp [uses]

end Options

theorem values_interval_of_build {words : List Word} (each : ∀ word ∈ words, word.IsOf .build) :
    values .pollInterval words = [] := by
  rw [values, List.filterMap_eq_nil_iff]
  intro word member
  have own := each word member
  cases word with
  | input text => rfl
  | switch flag spelling => rfl
  | setting flag spelling value =>
    refine if_neg ?_
    rintro rfl
    cases own.2

theorem uses_poll_of_build {words : List Word} (each : ∀ word ∈ words, word.IsOf .build) :
    uses .poll words = false := by
  rw [uses, List.any_eq_false]
  intro word member
  have own := each word member
  cases word with
  | input text => exact Bool.false_ne_true
  | setting flag spelling value => exact Bool.false_ne_true
  | switch flag spelling =>
    rw [decide_eq_true_eq]
    rintro rfl
    cases own.2

/-- The options that the words give. Of several values for one of them the last counts. -/
def options (words : List Word) : BuildOptions where
  output := (values .output words).getLast?
  classes := (values .classes words).getLast?
  minify := uses .minify words
  config := (values .config words).getLast?
  ignored := values .ignore words

@[simp]
theorem options_append_map (words : List Word) (texts : List String) :
    Word.options (words ++ texts.map input) = Word.options words := by
  simp [Word.options]

section Interval

variable (spelling value : String) (words : List Word)

@[simp]
theorem inputs_cons_interval :
    inputs (setting .pollInterval spelling value :: words) = inputs words :=
  rfl

@[simp]
theorem values_cons_interval :
    values .pollInterval (setting .pollInterval spelling value :: words) = value ::
      values .pollInterval words := rfl

@[simp]
theorem uses_cons_interval (flag : Flag) :
    uses flag (setting .pollInterval spelling value :: words) = uses flag words := rfl

@[simp]
theorem options_cons_interval :
    Word.options (setting .pollInterval spelling value :: words) = Word.options words := by
  simp [Word.options, values]

end Interval

/-- Words that give options. -/
def ofOptions (options : BuildOptions) : List Word :=
  options.output.toList.map (setting .output "--output") ++
    (options.classes.toList.map (setting .classes "--classes") ++
      (options.config.toList.map (setting .config "--config") ++
        (options.ignored.map (setting .ignore "--ignore") ++
          if options.minify then [switch .minify "--minify"] else [])))

theorem inputs_ofOptions (options : BuildOptions) : inputs (ofOptions options) = [] := by
  cases minify : options.minify <;> simp [ofOptions, minify]

theorem options_ofOptions (options : BuildOptions) :
    Word.options (ofOptions options) = options := by
  have last (given : Option String) : given.toList.getLast? = given := by cases given <;> rfl
  obtain ⟨output, classes, minify, config, ignored⟩ := options
  cases minify <;> simp [ofOptions, Word.options, last]

theorem isOf_of_mem_ofOptions {verb : Verb} (builds : verb ≠ .scan) {options : BuildOptions}
    {word : Word} (member : word ∈ ofOptions options) : word.IsOf verb := by
  simp only [ofOptions, List.mem_append, List.mem_map] at member
  rcases member with ⟨_, -, rfl⟩ | ⟨_, -, rfl⟩ | ⟨_, -, rfl⟩ | ⟨_, -, rfl⟩ | minify
  iterate 4 exact ⟨rfl, (Verb.mem_spellings builds).mpr ⟨by decide, rfl⟩⟩
  split at minify
  · obtain rfl := List.mem_singleton.mp minify
    exact ⟨rfl, (Verb.mem_spellings builds).mpr ⟨by decide, rfl⟩⟩
  · cases minify

theorem not_reserves_of_mem_inputs {verb : Verb} {words : List Word}
    (each : ∀ word ∈ words, word.IsOf verb) :
    ∀ input ∈ inputs words, ¬ verb.Reserves input := by
  intro text member
  obtain ⟨word, inside, found⟩ := List.mem_filterMap.mp member
  cases word <;> cases found
  exact each _ inside

end Word

end AtomicCss.Command
