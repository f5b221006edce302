import AtomicCss.Proofs.Engine.ClassName
import AtomicCss.Proofs.Stylesheet.Rows
import AtomicCss.Proofs.Text.Escaping
import AtomicCss.Proofs.Theme.Derivation
import AtomicCss.Proofs.Theme.Words

/-!
How the rule of a derived theme is laid out.

Outside of quotes an escaped character counts as the character itself, inside of them it counts for
nothing. So the escaped name of a theme is whole just if the name is and holds no quotes, and then,
and if its declarations are whole, its rule is laid out line by line and leaves all other lines of a
sheet as they are.
-/

namespace AtomicCss

namespace Layout

open Name Name.Chars

def quotes : List Char := ['"', '\'']

theorem along_escapeChar (parentheses : Nat) (c : Char) (rest : List Char) :
    Scan.along ⟨none, false, parentheses⟩ (escapeChar c ++ rest) =
      Scan.along ⟨none, false, parentheses⟩ (c :: rest) := by
  unfold escapeChar
  split
  · rfl
  · have slash : Scan.step ⟨none, false, parentheses⟩ '\\' = some ⟨none, false, parentheses⟩ := by
      simp [Scan.step, Scan.marks]
    rw [List.cons_append, List.singleton_append, Scan.along_cons, slash, Option.bind_some]

/-- No character of a name that stands unescaped is read in a special way. -/
theorem ne_of_isPlain {c : Char} (plain : isPlain c = true) :
    ∀ special ∈ '\\' :: '(' :: ')' :: quotes ++ Scan.marks, c ≠ special := by
  rintro special listed rfl
  have escaped : ('\\' :: '(' :: ')' :: quotes ++ Scan.marks).all (!isPlain ·) = true := by decide
  have own := List.all_eq_true.mp escaped c listed
  rw [plain] at own
  cases own

/-- No escaped text closes a quote. -/
theorem along_flatMap_of_quoted {quote : Char} (mark : quote ∈ quotes) (parentheses : Nat)
    (cs : List Char) :
    Scan.along ⟨some quote, false, parentheses⟩ (cs.flatMap escapeChar) =
      some ⟨some quote, false, parentheses⟩ := by
  induction cs with
  | nil => rfl
  | cons c rest ih =>
    have own : Scan.along ⟨some quote, false, parentheses⟩ (escapeChar c) =
        some ⟨some quote, false, parentheses⟩ := by
      unfold escapeChar
      split
      · next plain =>
        have unslashed : c ≠ '\\' := ne_of_isPlain plain _ (by simp)
        have other : c ≠ quote := ne_of_isPlain plain _ (by simp [mark])
        simp [Scan.along_cons, Scan.step, unslashed, other]
      · simp [Scan.along_cons, Scan.step]
    rw [List.flatMap_cons, Scan.along_append, own, Option.bind_some, ih]

/-- Outside of quotes only a quote leads into them. -/
theorem step_of_unquoted {c : Char} (unquoted : c ∉ quotes) (parentheses : Nat) :
    Scan.step ⟨none, false, parentheses⟩ c = none ∨
      ∃ next, Scan.step ⟨none, false, parentheses⟩ c = some ⟨none, false, next⟩ := by
  have unquoted : ¬ (c = '"' ∨ c = '\'') := by simpa [quotes] using unquoted
  simp only [Scan.step, if_neg unquoted]
  split
  · exact .inr ⟨_, rfl⟩
  · split
    · exact .inr ⟨_, rfl⟩
    · split
      · exact .inl rfl
      · exact .inr ⟨_, rfl⟩

theorem along_flatMap_iff (parentheses : Nat) (cs : List Char) :
    Scan.along ⟨none, false, parentheses⟩ (cs.flatMap escapeChar) = some .outside ↔
      (∀ c ∈ cs, c ∉ quotes) ∧ Scan.along ⟨none, false, parentheses⟩ cs = some .outside := by
  induction cs generalizing parentheses with
  | nil => simp
  | cons c rest ih =>
    rw [List.flatMap_cons, List.forall_mem_cons, along_escapeChar, Scan.along_cons, Scan.along_cons]
    by_cases quote : c ∈ quotes
    · have opened : Scan.step ⟨none, false, parentheses⟩ c = some ⟨some c, false, parentheses⟩ := by
        have mark : c = '"' ∨ c = '\'' := by simpa [quotes] using quote
        simp only [Scan.step, if_pos mark]
      rw [opened, Option.bind_some, along_flatMap_of_quoted quote]
      simp [Scan.outside, quote]
    · rcases step_of_unquoted quote parentheses with ends | ⟨next, kept⟩
      · simp [ends]
      · rw [kept, Option.bind_some, Option.bind_some, ih]
        simp [quote]

theorem isWhole_cons {c : Char} (kept : Scan.outside.step c = some .outside) (cs : List Char) :
    IsWhole (c :: cs) ↔ IsWhole cs := by
  rw [IsWhole, Scan.along_cons, kept, Option.bind_some, IsWhole]

theorem step_of_isPlain {c : Char} (plain : isPlain c = true) :
    Scan.outside.step c = some .outside := by
  have other := ne_of_isPlain plain
  simp only [quotes, Scan.marks, List.cons_append, List.nil_append, List.forall_mem_cons] at other
  obtain ⟨-, opening, closing, double, single, brace, semicolon, ending, -⟩ := other
  simp [Scan.step, Scan.outside, Scan.marks, *]

theorem isPlain_of_isDigit {c : Char} (digit : c.isDigit = true) : isPlain c = true := by
  simp [isPlain, Char.isAlphanum, digit]

theorem isWhole_escapeDigit {c : Char} (digit : c.isDigit = true) (cs : List Char) :
    IsWhole (escapeDigit c ++ cs) ↔ IsWhole cs := by
  have own := step_of_isPlain (isPlain_of_isDigit digit)
  have escaped : escapeDigit c ++ cs = '\\' :: '3' :: c :: ' ' :: cs := rfl
  rw [escaped, isWhole_cons (by decide), isWhole_cons (by decide), isWhole_cons own,
    isWhole_cons (by decide)]

/-- The escaped form of a name is whole just if the name is and holds no quotes. -/
theorem isWhole_escape_iff (cs : List Char) :
    IsWhole (escape cs) ↔ (∀ c ∈ cs, c ∉ quotes) ∧ IsWhole cs := by
  have unquoted {c : Char} (digit : c.isDigit = true) : c ∉ quotes := fun quote =>
    ne_of_isPlain (isPlain_of_isDigit digit) c (by simp [quote]) rfl
  rcases escape_cases cs with
    ⟨c, rest, digit, rfl, escaped⟩ | ⟨c, rest, digit, rfl, escaped⟩ | ⟨-, escaped⟩
  · have dash : '-' ∉ quotes := by decide
    have own := step_of_isPlain (isPlain_of_isDigit digit)
    rw [escaped, isWhole_cons (by decide), isWhole_escapeDigit digit, isWhole_cons (by decide),
      isWhole_cons own, List.forall_mem_cons, List.forall_mem_cons, and_iff_right dash,
      and_iff_right (unquoted digit)]
    exact along_flatMap_iff 0 rest
  · have own := step_of_isPlain (isPlain_of_isDigit digit)
    rw [escaped, isWhole_escapeDigit digit, isWhole_cons own, List.forall_mem_cons,
      and_iff_right (unquoted digit)]
    exact along_flatMap_iff 0 rest
  · rw [escaped]
    exact along_flatMap_iff 0 cs

theorem break_not_mem_escape {cs : List Char} (unbroken : '\n' ∉ cs) : '\n' ∉ escape cs := by
  have chars {cs : List Char} (unbroken : '\n' ∉ cs) : '\n' ∉ cs.flatMap escapeChar := by
    rw [List.mem_flatMap]
    rintro ⟨c, member, inside⟩
    have other : '\n' ≠ c := fun same => unbroken (same ▸ member)
    unfold escapeChar at inside
    split at inside <;> simp [other] at inside
  rcases escape_cases cs with ⟨c, rest, -, rfl, escaped⟩ | ⟨c, rest, -, rfl, escaped⟩ | ⟨-, escaped⟩
  · simp only [List.mem_cons, not_or] at unbroken
    simp [escaped, escapeDigit, unbroken.2.1, chars unbroken.2.2]
  · simp only [List.mem_cons, not_or] at unbroken
    simp [escaped, escapeDigit, unbroken.1, chars unbroken.2]
  · rw [escaped]
    exact chars unbroken

end Layout

namespace TokenScope

open Reference

section Break

variable {scope : TokenScope} {property : String} (prefixed : '\n' ∉ scope.namePrefix.toList)
  (tokens : ∀ scale name token, scope.theme.get? scale name = some token →
    '\n' ∉ token.reference.toList)

include prefixed tokens

theorem break_not_mem_shown {piece : Piece} (own : '\n' ∉ piece.source) :
    '\n' ∉ scope.shown property piece := by
  unfold shown
  split
  · next reference found =>
    cases piece with
    | char c => cases found
    | localToken name =>
      obtain rfl := Option.some.inj found
      have unbroken : '\n' ∉ name := fun member => own (by simp [Piece.source, member])
      unfold Name.customProperty Name.prefixed
      split <;> simp [prefixed, unbroken]
    | implied name =>
      obtain ⟨scale, -, found⟩ := Option.bind_eq_some_iff.mp found
      obtain ⟨token, held, written⟩ := Option.bind_eq_some_iff.mp found
      obtain rfl := Option.some.inj written
      exact tokens _ _ _ held
    | scaled scale name =>
      obtain ⟨token, held, written⟩ := Option.bind_eq_some_iff.mp found
      obtain rfl := Option.some.inj written
      exact tokens _ _ _ held
  · exact own

theorem break_not_mem_foldl {pieces : List Piece} {written : List Char}
    (own : '\n' ∉ pieces.flatMap Piece.source) (unbroken : '\n' ∉ written) :
    '\n' ∉ pieces.foldl (scope.append property) written := by
  induction pieces generalizing written with
  | nil => exact unbroken
  | cons piece rest ih =>
    obtain ⟨first, others⟩ := not_or.mp (mt List.mem_append.mpr own)
    have shown : '\n' ∉ scope.shown property piece := break_not_mem_shown prefixed tokens first
    apply ih others
    rcases scope.append_cases property written piece with same | ⟨before, rfl, same⟩
    · simp [same, shown, unbroken]
    · simp [same, shown, mt (List.mem_cons_of_mem '-') unbroken]

/-- A line break in a value that is resolved comes from the value itself or from a token. -/
theorem break_not_mem_resolve {value : String} (unbroken : '\n' ∉ value.toList) :
    '\n' ∉ (scope.resolve property value).toList := by
  unfold resolve
  split
  · next reference named =>
    unfold bareToken? at named
    split at named
    · cases named
    · obtain ⟨scale, -, found⟩ := Option.bind_eq_some_iff.mp named
      obtain ⟨token, held, written⟩ := Option.bind_eq_some_iff.mp found
      obtain rfl := Option.some.inj written
      exact tokens _ _ _ held
  · have source := flatMap_source value.toList
    rw [String.toList_ofList, List.mem_reverse]
    exact break_not_mem_foldl prefixed tokens (by rwa [source]) List.not_mem_nil

end Break

end TokenScope

namespace Engine

open Layout Theme

variable {config : Config} {theme : Theme} {name : Option String} {overrides : ScaleMap}

/-- The declarations of a theme as they stand in its rule. -/
def themeTexts (config : Config) (theme : Theme) : List (List Char) :=
  theme.declared.map fun token =>
    (token.property ++ ":" ++ (config.vocabulary theme).scope.resolve token.property
      token.value).toList

theorem toList_themeRule (config : Config) (theme : Theme) :
    (themeRule config theme).toList = ruleText theme.selector.toList (themeTexts config theme) := by
  have texts : themeTexts config theme = (theme.declared.map fun token =>
      token.property ++ ":" ++ (config.vocabulary theme).scope.resolve token.property
        token.value).map String.toList := by
    rw [themeTexts, List.map_map]
    rfl
  rw [texts]
  simp [themeRule, AtRule.block, ruleText, String.toList_intercalate]

theorem break_not_mem_of_unblank {cs : List Char} (unblank : ∀ c ∈ cs, Text.isBlank c = false) :
    '\n' ∉ cs := by
  intro member
  have shown := unblank _ member
  revert shown
  decide

theorem break_not_mem_namePrefix (valid : config.validate = .ok config) :
    '\n' ∉ config.namePrefix.toList :=
  break_not_mem_of_unblank fun c member =>
    AtomicIndex.isBlank_of_isPrefixChar (List.all_eq_true.mp (plain_of_validate valid) c member)

/-- The name of the theme holds no quotes, and the name and all declarations are whole. -/
structure HasWholeRule (config : Config) (theme : Theme) : Prop where
  unquoted : ∀ c ∈ theme.className.toList, c ∉ quotes
  name : IsWhole theme.className.toList
  declarations : ∀ text ∈ themeTexts config theme, IsWhole text

section Derived

variable (valid : config.validate = .ok config)
  (made : config.defaultTheme.derive name overrides config.namePrefix = .ok theme)

include valid made

theorem break_not_mem_className : '\n' ∉ theme.className.toList := by
  obtain ⟨scales, className, -, usable, named, rfl⟩ := derive_eq_ok.mp made
  apply break_not_mem_of_unblank
  intro c member
  cases name with
  | none =>
    obtain rfl := named
    apply AtomicIndex.isBlank_of_isPrefixChar
    exact AtomicIndex.isPrefixChar_prefixed (plain_of_validate valid)
      (fun _ => AtomicIndex.isPrefixChar_tagged (by decide)) member
  | some given =>
    obtain rfl := named
    have own := usable className rfl
    simp only [isUsableName, Text.hasBlank, Bool.and_eq_true, Bool.not_eq_true',
      List.any_eq_false] at own
    simpa using own.2 c member

theorem isSteady_selector : IsSteady theme.selector.toList := by
  obtain ⟨scales, className, -, -, -, rfl⟩ := derive_eq_ok.mp made
  have unbroken : '\n' ∉ className.toList := break_not_mem_className valid made
  have selector :
      (Name.classSelector className).toList = '.' :: Name.Chars.escape className.toList := by
    simp [Name.classSelector, Name.escape]
  refine ⟨?_, '.', by rw [selector]; rfl, by decide, by decide⟩
  rw [selector]
  exact List.not_mem_cons_of_ne_of_not_mem (by decide) (break_not_mem_escape unbroken)

theorem break_not_mem_property {token : Token}
    (held : token ∈ theme.declared ∨ ∃ scale own, theme.get? scale own = some token) :
    '\n' ∉ token.property.toList := by
  obtain ⟨prefixed, known, found⟩ := Config.exists_token_of_derive made held
  obtain ⟨scale, own⟩ := Config.isName_of_get? valid found
  have scale_unbroken := break_not_mem_of_unblank scale.unblank
  have own_unbroken := break_not_mem_of_unblank own.unblank
  have plain := break_not_mem_namePrefix valid
  unfold Token.property Name.customProperty Name.prefixed
  rw [prefixed]
  split <;> simp [plain, scale_unbroken, own_unbroken]

theorem isSteady_themeTexts (unbroken : ∀ token ∈ theme.declared, '\n' ∉ token.value.toList) :
    ∀ text ∈ themeTexts config theme, IsSteady text := by
  intro text member
  obtain ⟨token, declared, rfl⟩ := List.mem_map.mp member
  have property := break_not_mem_property valid made (.inl declared)
  have references : ∀ scale own token, theme.get? scale own = some token →
      '\n' ∉ token.reference.toList := by
    intro scale own token found
    have own := break_not_mem_property valid made (.inr ⟨scale, own, found⟩)
    simp [Token.reference, own]
  have resolved :
      '\n' ∉ ((config.vocabulary theme).scope.resolve token.property token.value).toList :=
    TokenScope.break_not_mem_resolve (break_not_mem_namePrefix valid) references
      (unbroken token declared)
  refine ⟨by simp [property, resolved], '-', ?_, by decide, by decide⟩
  simp [Token.property, Name.customProperty]

omit valid in
theorem isWhole_selector_iff : IsWhole theme.selector.toList ↔
    (∀ c ∈ theme.className.toList, c ∉ quotes) ∧ IsWhole theme.className.toList := by
  obtain ⟨scales, className, -, -, -, rfl⟩ := derive_eq_ok.mp made
  have selector :
      (Name.classSelector className).toList = '.' :: Name.Chars.escape className.toList := by
    simp [Name.classSelector, Name.escape]
  rw [selector, isWhole_cons (by decide), isWhole_escape_iff]

/-- The rule of a theme is laid out as its selector, its declarations and a closing brace, each on a
line, just if it is whole. Then it stands alone: the lines of the texts around it in a sheet are
printed as without it. -/
theorem pretty_themeRule (unbroken : ∀ token ∈ theme.declared, '\n' ∉ token.value.toList) :
    (pretty (themeRule config theme) =
        String.ofList
          ((ruleLines theme.selector.toList (themeTexts config theme)).flatMap Line.spelled) ↔
      HasWholeRule config theme) ∧
      (HasWholeRule config theme → ∀ before after : List String,
        (∀ text ∈ before, StandsAlone text.toList) →
          printedRows (String.join (before ++ after)) =
              before.flatMap printedRows ++ printedRows (String.join after) ∧
            printedRows (String.join (before ++ themeRule config theme :: after)) =
              before.flatMap printedRows ++
                (printedRows (themeRule config theme) ++ printedRows (String.join after))) := by
  have selector := isSteady_selector valid made
  have texts := isSteady_themeTexts valid made unbroken
  have selector_whole := isWhole_selector_iff made
  have rule := toList_themeRule config theme
  constructor
  · rw [pretty, rule, String.ofList_inj, chars_ruleText_iff selector texts, selector_whole]
    constructor
    · rintro ⟨⟨unquoted, name⟩, declarations⟩
      exact ⟨unquoted, name, declarations⟩
    · rintro ⟨unquoted, name, declarations⟩
      exact ⟨⟨unquoted, name⟩, declarations⟩
  · intro whole before after alone
    have own : StandsAlone (themeRule config theme).toList := by
      rw [rule]
      exact standsAlone_ruleText selector texts (selector_whole.mpr ⟨whole.unquoted, whole.name⟩)
        whole.declarations
    have behind := StandsAlone.printedRows_join (List.forall_mem_singleton.mpr own) after
    rw [List.flatMap_singleton, List.singleton_append] at behind
    exact ⟨StandsAlone.printedRows_join alone after,
      by rw [StandsAlone.printedRows_join alone, behind]⟩

end Derived

/-- A quote in the name of a theme: its rule is no longer laid out, and neither is what stands
behind it. With a colon in its place the rule is. -/
theorem pretty_themeRule_of_quote :
    let config : Config := ⟨"", .ofList [("s", .ofList [("t", "1px")])], [], .empty, .empty⟩
    let overrides : ScaleMap := .ofList [("s", .ofList [("t", "red")])]
    config.validate = .ok config ∧
      (∃ theme, config.defaultTheme.derive (some "a\"b") overrides "" = .ok theme ∧
        themeRule config theme = ".a\\\"b\x7b--s-t:red\x7d" ∧
        pretty (themeRule config theme) ≠
          String.ofList
            ((ruleLines theme.selector.toList (themeTexts config theme)).flatMap Line.spelled) ∧
        pretty (themeRule config theme ++ ".c\x7bcolor:blue\x7d") =
          ".a\\\"b\x7b--s-t: red\x7d.c\x7bcolor:blue\x7d;\n") ∧
      ∃ theme, config.defaultTheme.derive (some "a:b") overrides "" = .ok theme ∧
        pretty (themeRule config theme) =
          String.ofList
            ((ruleLines theme.selector.toList (themeTexts config theme)).flatMap Line.spelled) := by
  intro config overrides
  have valid : config.validate = .ok config :=
    Config.validate_eq_ok.mpr ⟨rfl, rfl, rfl, List.forall_mem_nil _, rfl⟩
  have unbroken {name : Option String} {theme : Theme}
      (made : config.defaultTheme.derive name overrides "" = .ok theme) :
      ∀ token ∈ theme.declared, '\n' ∉ token.value.toList := by
    have declared : theme.declared = [⟨"", "s", "t", "red"⟩] := declared_derive made
    rw [declared]
    exact List.forall_mem_singleton.mpr (by decide)
  refine ⟨valid, ?_, ?_⟩
  · obtain ⟨theme, made⟩ :
        ∃ theme, config.defaultTheme.derive (some "a\"b") overrides "" = .ok theme :=
      ⟨_, rfl⟩
    have laid_out := (pretty_themeRule valid made (unbroken made)).1
    refine ⟨theme, made, ?_, ?_, ?_⟩
    · cases made
      decide +kernel
    · rw [Ne, laid_out]
      intro whole
      have unquoted := whole.unquoted '"'
      cases made
      exact unquoted (by decide) (by decide)
    · cases made
      decide +kernel
  · obtain ⟨theme, made⟩ :
        ∃ theme, config.defaultTheme.derive (some "a:b") overrides "" = .ok theme :=
      ⟨_, rfl⟩
    have laid_out := (pretty_themeRule valid made (unbroken made)).1
    refine ⟨theme, made, laid_out.mpr ⟨?_, ?_, ?_⟩⟩
    · have named : theme.className = "a:b" := by
        cases made
        rfl
      simp [named, quotes]
    · cases made
      decide
    · have texts : themeTexts config theme = ["--s-t:red".toList] := by
        cases made
        decide +kernel
      rw [texts]
      exact List.forall_mem_singleton.mpr (by decide)

end Engine

end AtomicCss
