import AtomicCss.Proofs.Selector.Owner
import AtomicCss.Proofs.Theme.Scanning
import AtomicCss.Proofs.Theme.Token

/-!
Which tokens a value can refer to.

A reference that names a scale and a token is read name by name. It is replaced by the token just if
both names are read as they stand; a dollar sign that is read otherwise stays in the value, or the
value gets longer than it should.
-/

namespace AtomicCss

theorem cons_eq_append_singleton {α : Type} {c : α} {cs : List α} :
    c :: cs = cs ++ [c] ↔ cs = List.replicate cs.length c := by
  induction cs with
  | nil => simp
  | cons d rest ih =>
    rw [List.cons_append, List.length_cons, List.replicate_succ, List.cons.injEq, List.cons.injEq]
    constructor
    · rintro ⟨rfl, same⟩
      exact ⟨rfl, ih.mp same⟩
    · rintro ⟨rfl, same⟩
      exact ⟨rfl, ih.mpr same⟩

namespace Reference

theorem isNegated_of_blank {written : List Char}
    (blank : ∀ c ∈ written.head?, Text.isBlank c = true) : isNegated written = false := by
  cases written with
  | nil => rfl
  | cons c rest =>
    have spaced := blank c rfl
    unfold isNegated
    split <;> simp_all +decide

end Reference

namespace TokenScope

open Reference

variable {scope : TokenScope} {property : String}

/-- What is written for a piece behind a text that ends in no minus. -/
def shown (scope : TokenScope) (property : String) (piece : Piece) : List Char :=
  match scope.target? property piece with
  | some reference => reference.toList
  | none => piece.source

theorem shown_scaled (scope : TokenScope) (property : String) (scale name : List Char) :
    scope.shown property (.scaled scale name) =
      match scope.theme.get? (String.ofList scale) (String.ofList name) with
      | some token => token.reference.toList
      | none => '$' :: scale ++ '$' :: name := by
  unfold shown target?
  cases found : scope.theme.get? (String.ofList scale) (String.ofList name) <;>
    simp only [bind, Option.bind, found] <;> rfl

/-- A name alone is written as a token, or as it stands. -/
theorem shown_implied (scope : TokenScope) (property : String) (name : List Char) :
    scope.shown property (.implied name) = '$' :: name ∨
      ∃ scale token, scope.theme.get? scale (String.ofList name) = some token ∧
        scope.shown property (.implied name) = token.reference.toList := by
  unfold shown target?
  cases implied : scope.impliedScale? property with
  | none => exact .inl rfl
  | some scale =>
    cases found : scope.theme.get? scale (String.ofList name) with
    | none =>
      simp only [bind, Option.bind, found]
      exact .inl rfl
    | some token =>
      simp only [bind, Option.bind, found]
      exact .inr ⟨scale, token, found, rfl⟩

theorem append_of_not_negated {written : List Char} (positive : isNegated written = false)
    (piece : Piece) :
    scope.append property written piece = (scope.shown property piece).reverse ++ written := by
  unfold append shown
  cases scope.target? property piece with
  | none => rw [List.reverseAux_eq]
  | some reference => simp only [write, positive, Bool.false_eq_true, if_false, List.reverseAux_eq]

theorem append_char (written : List Char) (c : Char) :
    scope.append property written (.char c) = c :: written := rfl

theorem foldl_append_chars (cs written : List Char) :
    (cs.map Piece.char).foldl (scope.append property) written = cs.reverse ++ written := by
  induction cs generalizing written with
  | nil => rfl
  | cons c cs ih =>
    rw [List.map_cons, List.foldl_cons, append_char, ih, List.reverse_cons, List.append_assoc]
    rfl

theorem exists_of_isNegated {written : List Char} (negated : isNegated written = true) :
    ∃ before, written = '-' :: before := by
  unfold isNegated at negated
  split at negated
  · exact ⟨[], rfl⟩
  · exact ⟨_, rfl⟩
  · cases negated

/-- A minus before a reference goes into the reference; nothing else is dropped. -/
theorem append_cases (scope : TokenScope) (property : String) (written : List Char)
    (piece : Piece) :
    scope.append property written piece = (scope.shown property piece).reverse ++ written ∨
      ∃ before, written = '-' :: before ∧
        scope.append property written piece =
          ("calc(".toList ++ scope.shown property piece ++ " * -1)".toList).reverse ++ before := by
  cases negated : isNegated written with
  | false => exact .inl (append_of_not_negated negated piece)
  | true =>
    obtain ⟨before, rfl⟩ := exists_of_isNegated negated
    unfold append shown
    cases scope.target? property piece with
    | none => exact .inl (by rw [List.reverseAux_eq])
    | some reference =>
      refine .inr ⟨before, rfl, ?_⟩
      simp only [write, negated, if_true, List.reverseAux_eq, String.toList_append, List.drop_one,
        List.tail_cons]

theorem dollar_mem_append {written : List Char} (member : '$' ∈ written) (piece : Piece) :
    '$' ∈ scope.append property written piece := by
  rcases scope.append_cases property written piece with same | ⟨before, rfl, same⟩
  · rw [same]
    exact List.mem_append_right _ member
  · rw [same]
    exact List.mem_append_right _ (List.mem_of_ne_of_mem (by decide) member)

theorem dollar_mem_foldl {written : List Char} (member : '$' ∈ written) (pieces : List Piece) :
    '$' ∈ pieces.foldl (scope.append property) written := by
  induction pieces generalizing written with
  | nil => exact member
  | cons piece rest ih => exact ih (dollar_mem_append member piece)

/-- A dollar sign that starts no reference to a token stays. -/
theorem dollar_mem_of_unresolved {pieces : List Piece} {piece : Piece} (member : piece ∈ pieces)
    (kept : '$' ∈ scope.shown property piece) (written : List Char) :
    '$' ∈ pieces.foldl (scope.append property) written := by
  obtain ⟨front, back, rfl⟩ := List.append_of_mem member
  rw [List.foldl_append, List.foldl_cons]
  apply dollar_mem_foldl
  rcases scope.append_cases property (front.foldl (scope.append property) written) piece
    with same | ⟨before, -, same⟩
  · rw [same]
    exact List.mem_append_left _ (List.mem_reverse.mpr kept)
  · rw [same]
    simp [kept]

theorem length_foldl (scope : TokenScope) (property : String) (pieces : List Piece)
    (written : List Char) :
    written.length + (pieces.flatMap (scope.shown property)).length ≤
      (pieces.foldl (scope.append property) written).length := by
  induction pieces generalizing written with
  | nil => simp
  | cons piece rest ih =>
    have opened : 1 ≤ "calc(".toList.length := by decide
    have step : written.length + (scope.shown property piece).length ≤
        (scope.append property written piece).length := by
      rcases scope.append_cases property written piece with same | ⟨before, rfl, same⟩ <;>
        simp only [same, List.length_append, List.length_reverse, List.length_cons] <;> omega
    have later := ih (scope.append property written piece)
    rw [List.flatMap_cons, List.length_append, List.foldl_cons]
    omega

/-- A value with a dollar sign is no bare token, as long as no token has one in its name. -/
theorem resolve_of_dollar {value : String} (member : '$' ∈ value.toList)
    (undollared : ∀ scale name token, scope.theme.get? scale name = some token →
      '$' ∉ name.toList) :
    scope.resolve property value =
      String.ofList ((pieces value.toList).foldl (scope.append property) []).reverse := by
  have kept : '$' ∈ (Text.trim value).toList := by
    rw [Text.trim, String.toList_ofList]
    have ink := Text.Chars.mem_ink.mpr ⟨member, by decide⟩
    rw [← Text.Chars.ink_trim] at ink
    exact (Text.Chars.mem_ink.mp ink).1
  have unnamed : scope.bareToken? property (Text.trim value) = none := by
    unfold bareToken?
    split
    · rfl
    · cases implied : scope.impliedScale? property with
      | none => rfl
      | some scale =>
        cases found : scope.theme.get? scale (Text.trim value) with
        | none => simp [found]
        | some token => exact absurd kept (undollared _ _ _ found)
  rw [resolve, unnamed]

theorem flatMap_shown_chars (scope : TokenScope) (property : String) (cs : List Char) :
    (cs.map Piece.char).flatMap (scope.shown property) = cs := by
  induction cs with
  | nil => rfl
  | cons c cs ih =>
    rw [List.map_cons, List.flatMap_cons, ih]
    rfl

end TokenScope

namespace Token

/-- All characters of a reference but the name of the token and the closing parenthesis. -/
def lead (namePrefix scale : String) : List Char :=
  "var(".toList ++ (Name.customProperty namePrefix (scale ++ "-")).toList

theorem toList_reference (token : Token) :
    token.reference.toList = lead token.namePrefix token.scale ++ token.name.toList ++ [')'] := by
  unfold lead reference property Name.customProperty Name.prefixed
  split <;> simp

theorem length_lead (namePrefix scale : String) :
    (lead namePrefix scale).length = (lead namePrefix "").length + scale.toList.length := by
  unfold lead Name.customProperty Name.prefixed
  split <;> simp <;> omega

theorem length_reference (token : Token) :
    token.reference.toList.length =
      (lead token.namePrefix "").length + token.scale.toList.length +
        token.name.toList.length + 1 := by
  rw [toList_reference, List.length_append, List.length_append, length_lead, List.length_singleton]

/-- What stands behind a reference to a token makes it one to a longer name of the scale only if it
reads as further closing parentheses. -/
theorem reference_append_iff {token other : Token} {rest : List Char}
    (prefixed : other.namePrefix = token.namePrefix) (own : other.scale = token.scale)
    (spelled : other.name.toList ++ rest = token.name.toList) :
    other.reference.toList ++ rest = token.reference.toList ↔
      rest = List.replicate rest.length ')' := by
  rw [toList_reference, toList_reference, ← spelled, prefixed, own, ← cons_eq_append_singleton]
  simp only [List.append_assoc, List.append_cancel_left_eq]
  rfl

end Token

namespace Config

open Reference

variable {config : Config}

theorem theme_vocabulary (config : Config) (theme : Theme) :
    (config.vocabulary theme).scope.theme = theme := rfl

theorem dollar_not_mem_reference (valid : config.validate = .ok config) {scale name : String}
    {token : Token} (found : config.defaultTheme.get? scale name = some token) :
    '$' ∉ token.reference.toList := by
  obtain ⟨plain, -⟩ := validate_eq_ok.mp valid
  obtain ⟨own_scale, own_name⟩ := isName_of_get? valid found
  obtain ⟨same, rfl, rfl⟩ := names_of_get? found
  have undollared : '$' ∉ config.namePrefix.toList := by
    intro member
    have allowed := List.all_eq_true.mp plain _ member
    revert allowed
    decide
  have scale := own_scale.undollared
  have name := own_name.undollared
  rw [Token.toList_reference, same]
  unfold Token.lead Name.customProperty Name.prefixed
  split <;> simp [undollared, scale, name]

/-- A name alone that leaves no dollar sign is written as a token, and so longer than it is. -/
theorem length_shown_implied {property : String} {name : List Char}
    (resolved : '$' ∉ (config.vocabulary config.defaultTheme).scope.shown property
      (.implied name)) :
    (Token.lead config.namePrefix "").length + name.length + 1 ≤
      ((config.vocabulary config.defaultTheme).scope.shown property (.implied name)).length := by
  rcases TokenScope.shown_implied (config.vocabulary config.defaultTheme).scope property name with
    kept | ⟨scale, token, found, written⟩
  · rw [kept] at resolved
    exact absurd List.mem_cons_self resolved
  · obtain ⟨same, -, named⟩ := names_of_get? found
    rw [written, Token.length_reference, same, named, String.toList_ofList]
    omega

/-- Where a scale is not read as it stands, two names are written for one: without a dollar sign the
value gets longer than it should. -/
theorem length_of_unreadable {property : String}
    {scale scale_rest name name_rest written : List Char}
    (resolved : '$' ∉ (Piece.implied scale :: (scale_rest.map Piece.char ++
        .implied name :: name_rest.map Piece.char)).foldl
      ((config.vocabulary config.defaultTheme).scope.append property) written) :
    written.length + 2 * (Token.lead config.namePrefix "").length + scale.length +
      scale_rest.length +
        name.length + name_rest.length + 2 ≤
      ((Piece.implied scale :: (scale_rest.map Piece.char ++
        .implied name :: name_rest.map Piece.char)).foldl
      ((config.vocabulary config.defaultTheme).scope.append property) written).length := by
  have written_of (part : List Char) (member : Piece.implied part ∈ Piece.implied scale ::
      (scale_rest.map Piece.char ++ .implied name :: name_rest.map Piece.char)) :=
    length_shown_implied fun kept =>
      resolved (TokenScope.dollar_mem_of_unresolved member kept written)
  have first := written_of scale List.mem_cons_self
  have second := written_of name (by simp)
  have whole := (config.vocabulary config.defaultTheme).scope.length_foldl property
    (Piece.implied scale ::
      (scale_rest.map Piece.char ++ .implied name :: name_rest.map Piece.char)) written
  rw [List.flatMap_cons, List.flatMap_append, List.flatMap_cons, TokenScope.flatMap_shown_chars,
    TokenScope.flatMap_shown_chars] at whole
  simp only [List.length_append] at whole
  omega

section Referring

variable {scale name property before after : String} {token : Token}
  (valid : config.validate = .ok config)
  (found : config.defaultTheme.get? scale name = some token)
  (before_plain : '$' ∉ before.toList) (after_plain : '$' ∉ after.toList)

include valid before_plain in
/-- What is written for a reference in a value, last character first. -/
theorem resolve_referring :
    (config.vocabulary config.defaultTheme).scope.resolve property
        (before ++ "$" ++ scale ++ "$" ++ name ++ after) =
      String.ofList ((pieces ('$' :: (scale.toList ++ '$' :: (name.toList ++ after.toList)))).foldl
        ((config.vocabulary config.defaultTheme).scope.append property)
          before.toList.reverse).reverse := by
  have chars : (before ++ "$" ++ scale ++ "$" ++ name ++ after).toList =
      before.toList ++ '$' :: (scale.toList ++ '$' :: (name.toList ++ after.toList)) := by
    simp
  rw [TokenScope.resolve_of_dollar, chars, pieces_append before_plain, List.foldl_append,
    TokenScope.foldl_append_chars, List.append_nil]
  · rw [chars]
    exact List.mem_append_right _ List.mem_cons_self
  · intro scale name token known
    exact (isName_of_get? valid known).2.undollared

/-- The name is read up to closing parentheses, and what is read is a token of the scale. -/
theorem exists_read_iff :
    (∃ read count, name.toList = read ++ List.replicate count ')' ∧ IsReadable read ∧
        (config.defaultTheme.get? scale (String.ofList read)).isSome) ↔
      (scanName name.toList).2 = List.replicate (scanName name.toList).2.length ')' ∧
        (config.defaultTheme.get? scale (String.ofList (scanName name.toList).1)).isSome := by
  constructor
  · rintro ⟨read, count, spelled, readable, known⟩
    rw [scanName_eq_parens.mpr ⟨spelled, readable⟩]
    exact ⟨by rw [List.length_replicate], known⟩
  · rintro ⟨closing, known⟩
    obtain ⟨spelled, readable⟩ := scanName_eq_parens.mp (Prod.ext rfl closing)
    exact ⟨_, _, spelled, readable, known⟩

include valid found before_plain after_plain

theorem dollar_not_mem_target :
    '$' ∉ before.toList ++ token.reference.toList ++ after.toList := by
  simpa using ⟨before_plain, dollar_not_mem_reference valid found, after_plain⟩

/-- Where the scale is read as it stands, a token is written whose name the rest of the name
follows. -/
theorem written_scaled_iff (positive : isNegated before.toList.reverse = false) :
    ((Piece.scaled scale.toList (scanName name.toList).1 ::
          ((scanName name.toList).2 ++ after.toList).map Piece.char).foldl
        ((config.vocabulary config.defaultTheme).scope.append property)
          before.toList.reverse).reverse =
        before.toList ++ token.reference.toList ++ after.toList ↔
      (scanName name.toList).2 = List.replicate (scanName name.toList).2.length ')' ∧
        (config.defaultTheme.get? scale (String.ofList (scanName name.toList).1)).isSome := by
  obtain ⟨prefixed, own, named⟩ := names_of_get? found
  rw [List.foldl_cons, TokenScope.append_of_not_negated positive, TokenScope.foldl_append_chars,
    TokenScope.shown_scaled, String.ofList_toList, theme_vocabulary]
  cases known : config.defaultTheme.get? scale (String.ofList (scanName name.toList).1) with
  | none =>
    constructor
    · intro same
      exfalso
      apply dollar_not_mem_target valid found before_plain after_plain
      rw [← same]
      simp
    · rintro ⟨-, found⟩
      cases found
  | some other =>
    obtain ⟨other_prefixed, other_own, other_named⟩ := names_of_get? known
    have spelled : other.name.toList ++ (scanName name.toList).2 = token.name.toList := by
      rw [other_named, named, String.toList_ofList, append_scanName]
    have flipped : (((scanName name.toList).2 ++ after.toList).reverse ++
        (other.reference.toList.reverse ++ before.toList.reverse)).reverse =
        before.toList ++ (other.reference.toList ++ (scanName name.toList).2) ++ after.toList := by
      simp
    dsimp only
    rw [flipped, List.append_cancel_right_eq, List.append_cancel_left_eq,
      Token.reference_append_iff (other_prefixed.trans prefixed.symm)
        (other_own.trans own.symm) spelled]
    simp

/-- Where the scale is not read as it stands, what is written is never the token. -/
theorem written_unreadable_ne :
    ((Piece.implied (scanName scale.toList).1 :: ((scanName scale.toList).2.map Piece.char ++
          .implied (scanName name.toList).1 ::
            ((scanName name.toList).2 ++ after.toList).map Piece.char)).foldl
        ((config.vocabulary config.defaultTheme).scope.append property)
          before.toList.reverse).reverse ≠
      before.toList ++ token.reference.toList ++ after.toList := by
  intro same
  obtain ⟨prefixed, own, named⟩ := names_of_get? found
  have long := length_of_unreadable fun member =>
    dollar_not_mem_target valid found before_plain after_plain (same ▸ List.mem_reverse.mpr member)
  have lengths := congrArg List.length same
  have scale_length := congrArg List.length (append_scanName scale.toList)
  have name_length := congrArg List.length (append_scanName name.toList)
  rw [List.length_reverse, List.length_append, List.length_append, Token.length_reference,
    prefixed, own, named] at lengths
  rw [List.length_append] at scale_length name_length
  rw [List.length_reverse, List.length_append] at long
  omega

/-- A reference to a token becomes the token just if its scale is read as it stands and its name is
read up to closing parentheses as the name of a token of the scale: the name itself, if there are
none. -/
theorem resolve_eq_reference_iff
    (before_blank : ∀ c ∈ before.toList.getLast?, Text.isBlank c = true)
    (after_blank : ∀ c ∈ after.toList.head?, Text.isBlank c = true) :
    (config.vocabulary config.defaultTheme).scope.resolve property
        (before ++ "$" ++ scale ++ "$" ++ name ++ after) =
        before ++ "var(" ++ token.property ++ ")" ++ after ↔
      IsReadable scale.toList ∧ ∃ read count, name.toList = read ++ List.replicate count ')' ∧
        IsReadable read ∧ (config.defaultTheme.get? scale (String.ofList read)).isSome := by
  obtain ⟨own_scale, own_name⟩ := isName_of_get? valid found
  have positive : isNegated before.toList.reverse = false := by
    apply isNegated_of_blank
    rwa [List.head?_reverse]
  have target : (before ++ "var(" ++ token.property ++ ")" ++ after).toList =
      before.toList ++ token.reference.toList ++ after.toList := by
    simp [Token.reference]
  rw [resolve_referring valid before_plain, exists_read_iff, ← String.toList_inj, target,
    String.toList_ofList]
  have some_char {text : String} (shown : text ≠ "") : text.toList ≠ [] := by simpa using shown
  rcases pieces_reference own_name.undollared after_plain (some_char own_name.shown)
    (stops_of_isBlank after_blank) own_scale.undollared (some_char own_scale.shown) with
    ⟨readable, cut⟩ | ⟨unread, alone⟩ | ⟨unreadable, cut⟩
  · rw [cut, written_scaled_iff valid found before_plain after_plain positive]
    simp [readable]
  · -- A dollar sign that stands alone stays.
    constructor
    · intro same
      exfalso
      apply dollar_not_mem_target valid found before_plain after_plain
      rw [← same, List.mem_reverse]
      exact TokenScope.dollar_mem_of_unresolved alone List.mem_cons_self _
    · rintro ⟨readable, -, known⟩
      rw [unread readable] at known
      obtain ⟨other, empty⟩ := Option.isSome_iff_exists.mp known
      exact absurd rfl (isName_of_get? valid empty).2.shown
  · rw [cut]
    constructor
    · exact fun same => absurd same (written_unreadable_ne valid found before_plain after_plain)
    · exact fun readable => absurd readable.1 unreadable

end Referring

/-- A token with a dot before a letter in its name has a custom property, but no reference becomes
it. -/
theorem reference_of_dotted_name :
    let config : Config :=
      ⟨"", .ofList [("colors", .ofList [("a.b", "red"), ("a", "blue")])], [], .empty, .empty⟩
    let dotted : Token := ⟨"", "colors", "a.b", "red"⟩
    let plain : Token := ⟨"", "colors", "a", "blue"⟩
    let scope := (config.vocabulary config.defaultTheme).scope
    config.validate = .ok config ∧ config.defaultTheme.get? "colors" "a.b" = some dotted ∧
      config.defaultTheme.get? "colors" "a" = some plain ∧
      scope.resolve "border" ("1px " ++ "$" ++ "colors" ++ "$" ++ "a" ++ " solid") =
        "1px " ++ "var(" ++ plain.property ++ ")" ++ " solid" ∧
      ¬ IsReadable "a.b".toList ∧
      scope.resolve "color" ("" ++ "$" ++ "colors" ++ "$" ++ "a.b" ++ "") ≠
        "" ++ "var(" ++ dotted.property ++ ")" ++ "" := by
  intro config dotted plain scope
  have valid : config.validate = .ok config :=
    validate_eq_ok.mpr ⟨rfl, rfl, rfl, List.forall_mem_nil _, rfl⟩
  have found : config.defaultTheme.get? "colors" "a.b" = some dotted := rfl
  have found_plain : config.defaultTheme.get? "colors" "a" = some plain := rfl
  have scale_readable : IsReadable "colors".toList := by unfold IsReadable; decide
  have name_readable : IsReadable "a".toList := by unfold IsReadable; decide
  have stopped : scanName "a.b".toList = (['a'], ['.', 'b']) := by decide
  have blank_before : ∀ c ∈ "1px ".toList.getLast?, Text.isBlank c = true := by simp [Text.isBlank]
  have blank_after : ∀ c ∈ " solid".toList.head?, Text.isBlank c = true := by simp [Text.isBlank]
  have nothing_before : ∀ c ∈ "".toList.getLast?, Text.isBlank c = true := by simp
  have nothing_after : ∀ c ∈ "".toList.head?, Text.isBlank c = true := by simp
  refine ⟨valid, found, found_plain, ?_, ?_, ?_⟩
  · apply (resolve_eq_reference_iff valid found_plain (by decide) (by decide) blank_before
      blank_after).mpr
    exact ⟨scale_readable, _, 0, (List.append_nil _).symm, name_readable, rfl⟩
  · rw [isReadable_iff, stopped]
    exact List.cons_ne_nil _ _
  · rw [Ne,
      resolve_eq_reference_iff valid found (by decide) (by decide) nothing_before nothing_after,
      exists_read_iff, stopped]
    rintro ⟨-, closing, -⟩
    revert closing
    decide

end Config

end AtomicCss
