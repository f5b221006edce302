import AtomicCss.Proofs.Theme.Reference

/-!
Values are resolved word by word.

A value is cut into the same pieces before a blank as at its end, and what is written behind a blank
does not depend on what stands before it. So the words of a value are resolved each on its own. A
value that names no token changes just if one of its references leads somewhere.
-/

namespace AtomicCss

namespace Reference

theorem pieces_local {rest after name : List Char} {c : Char}
    (scanned : scanName rest = (c :: name, after)) :
    pieces ('$' :: '$' :: rest) = .localToken (c :: name) :: pieces after := by
  rw [pieces]
  split <;> simp_all

theorem pieces_local_unread {rest : List Char} (scanned : (scanName rest).1 = []) :
    pieces ('$' :: '$' :: rest) = .char '$' :: .char '$' :: pieces rest := by
  rw [pieces]
  split <;> simp_all

/-- A text is cut alike wherever it stands before what goes on no name and starts no reference. -/
theorem pieces_append_of_stops {rest : List Char} (stops : Stops rest)
    (single : rest.head? ≠ some '$') (cs : List Char) :
    pieces (cs ++ rest) = pieces cs ++ pieces rest := by
  have behind {cs name after : List Char} (scanned : scanName cs = (name, after)) :
      scanName (cs ++ rest) = (name, after ++ rest) := by
    rw [scanName_append stops, scanned]
  have apart {cs : List Char} (alone : ∀ tail, cs = '$' :: tail → False) :
      (cs ++ rest).head? ≠ some '$' := by
    cases cs with
    | nil => exact single
    | cons c tail =>
      intro first
      obtain rfl : c = '$' := Option.some.inj first
      exact alone tail rfl
  fun_induction pieces cs with
  | case1 => rfl
  | case2 tail _ scanned ih =>
    rw [List.cons_append, List.cons_append,
      pieces_local_unread (congrArg Prod.fst (behind scanned)), ih]
    rfl
  | case3 tail name after named scanned ih =>
    obtain ⟨c, name, rfl⟩ := List.exists_cons_of_ne_nil named
    rw [List.cons_append, List.cons_append, pieces_local (behind scanned), ih]
    rfl
  | case4 tail alone _ scanned ih =>
    rw [List.cons_append, pieces_unread (apart alone) (congrArg Prod.fst (behind scanned)), ih]
    rfl
  | case5 tail alone name after named scanned _ again ih =>
    obtain ⟨c, name, rfl⟩ := List.exists_cons_of_ne_nil named
    rw [List.cons_append, pieces_implied_unread (behind scanned) (congrArg Prod.fst (behind again))]
    exact congrArg (Piece.implied (c :: name) :: ·) ih
  | case6 tail alone scale after scaled scanned name last named again ih =>
    obtain ⟨c, scale, rfl⟩ := List.exists_cons_of_ne_nil scaled
    obtain ⟨d, name, rfl⟩ := List.exists_cons_of_ne_nil named
    rw [List.cons_append, pieces_scaled (behind scanned) (behind again), ih]
    rfl
  | case7 tail alone name after named ended scanned ih =>
    obtain ⟨c, name, rfl⟩ := List.exists_cons_of_ne_nil named
    rw [List.cons_append, pieces_implied (behind scanned) (apart ended), ih]
    rfl
  | case8 c tail _ shown ih =>
    rw [List.cons_append, pieces_char shown, ih]
    rfl

/-- Cutting a text loses nothing. -/
theorem flatMap_source (cs : List Char) : (pieces cs).flatMap Piece.source = cs := by
  have whole {cs name after : List Char} (scanned : scanName cs = (name, after)) :
      name ++ after = cs := by
    rw [← append_scanName cs, scanned]
  fun_induction pieces cs with
  | case1 => rfl
  | case2 tail _ scanned ih | case4 tail _ _ scanned ih | case8 _ tail _ _ ih =>
    simp only [List.flatMap_cons, ih, Piece.source, List.cons_append, List.nil_append]
  | case3 tail name after _ scanned ih | case7 tail _ name after _ _ scanned ih =>
    simp only [List.flatMap_cons, ih, Piece.source, List.cons_append, whole scanned]
  | case5 tail _ name after _ scanned _ _ ih =>
    simp only [List.flatMap_cons, ih, Piece.source, List.cons_append, whole scanned]
  | case6 tail _ scale after _ scanned name last _ again ih =>
    simp only [List.flatMap_cons, ih, Piece.source, List.cons_append, List.append_assoc,
      whole again, whole scanned]

/-- A local token is read only where two dollar signs stand before its name. -/
theorem exists_of_mem_local {cs name : List Char} (member : .localToken name ∈ pieces cs) :
    ∃ before after, cs = before ++ '$' :: '$' :: after ∧ (scanName after).1 ≠ [] := by
  have later (front : List Char) {tail : List Char}
      (found : ∃ before after, tail = before ++ '$' :: '$' :: after ∧ (scanName after).1 ≠ []) :
      ∃ before after, front ++ tail = before ++ '$' :: '$' :: after ∧ (scanName after).1 ≠ [] := by
    obtain ⟨before, after, rfl, named⟩ := found
    exact ⟨front ++ before, after, (List.append_assoc _ _ _).symm, named⟩
  have whole {cs name after : List Char} (scanned : scanName cs = (name, after)) :
      cs = name ++ after := by
    rw [← append_scanName cs, scanned]
  fun_induction pieces cs with
  | case1 => cases member
  | case2 tail _ _ ih => exact later ['$', '$'] (ih (by simpa using member))
  | case3 tail own after named scanned ih =>
    refine ⟨[], tail, rfl, ?_⟩
    rw [scanned]
    exact named
  | case4 tail _ _ _ ih => exact later ['$'] (ih (by simpa using member))
  | case5 tail _ own after _ scanned _ _ ih =>
    rw [whole scanned]
    exact later ('$' :: own) (ih (by simpa using member))
  | case6 tail _ scale after _ scanned own last _ again ih =>
    rw [whole scanned, whole again]
    have found := later ('$' :: scale ++ '$' :: own) (ih (by simpa using member))
    rwa [List.append_assoc] at found
  | case7 tail _ own after _ _ scanned ih =>
    rw [whole scanned]
    exact later ('$' :: own) (ih (by simpa using member))
  | case8 c tail _ _ ih => exact later [c] (ih (by simpa using member))

/-- Whether a reference is negated depends on what stands behind the last blank only. -/
theorem isNegated_append_blank {c : Char} (blank : Text.isBlank c = true)
    (written before : List Char) :
    isNegated (written ++ c :: before) = isNegated written := by
  match written with
  | [] =>
    have first : ∀ d ∈ (c :: before).head?, Text.isBlank d = true := by simpa using blank
    exact isNegated_of_blank first
  | [d] =>
    by_cases minus : d = '-'
    · subst minus
      simp [isNegated, blank]
    · simp [isNegated, minus]
  | d :: e :: rest =>
    by_cases minus : d = '-'
    · subst minus
      rfl
    · simp [isNegated, minus]

end Reference

namespace TokenScope

open Reference

variable {scope : TokenScope} {property : String}

theorem append_append_blank {c : Char} (blank : Text.isBlank c = true) (written before : List Char)
    (piece : Piece) :
    scope.append property (written ++ c :: before) piece =
      scope.append property written piece ++ c :: before := by
  unfold append
  cases scope.target? property piece with
  | none => simp only [List.reverseAux_eq, List.append_assoc]
  | some reference =>
    unfold write
    rw [isNegated_append_blank blank]
    cases negated : isNegated written with
    | false => simp only [Bool.false_eq_true, if_false, List.reverseAux_eq, List.append_assoc]
    | true =>
      obtain ⟨front, rfl⟩ := exists_of_isNegated negated
      simp only [if_true, List.reverseAux_eq, List.cons_append, List.drop_succ_cons, List.drop_zero,
        List.append_assoc]

/-- What is written behind a blank is written as at the start. -/
theorem foldl_append_blank {c : Char} (blank : Text.isBlank c = true) (pieces : List Piece)
    (written before : List Char) :
    pieces.foldl (scope.append property) (written ++ c :: before) =
      pieces.foldl (scope.append property) written ++ c :: before := by
  induction pieces generalizing written with
  | nil => rfl
  | cons piece rest ih => rw [List.foldl_cons, append_append_blank blank, ih, List.foldl_cons]

/-- What is written later takes back nothing behind a character that is no minus. -/
theorem exists_foldl_eq_append {c : Char} (kept : c ≠ '-') (pieces : List Piece)
    (front before : List Char) :
    ∃ later,
      pieces.foldl (scope.append property) (front ++ c :: before) = later ++ c :: before := by
  induction pieces generalizing front with
  | nil => exact ⟨front, rfl⟩
  | cons piece rest ih =>
    rw [List.foldl_cons]
    rcases scope.append_cases property (front ++ c :: before) piece with
      same | ⟨written, minus, same⟩
    · rw [same, ← List.append_assoc]
      exact ih _
    · cases front with
      | nil => exact absurd (List.cons.inj minus).1 kept
      | cons d front =>
        obtain rfl : front ++ c :: before = written := (List.cons.inj minus).2
        rw [same, ← List.append_assoc]
        exact ih _

/-- A reference that leads somewhere starts with a dollar sign, and what is written for it does
not. -/
theorem shape_of_target? {piece : Piece} {reference : String}
    (leads : scope.target? property piece = some reference) :
    (∃ tail, piece.source = '$' :: tail) ∧ ∃ tail, reference.toList = 'v' :: tail := by
  have shape (token : Token) : ∃ tail, token.reference.toList = 'v' :: tail := by
    rw [Token.toList_reference]
    exact ⟨_, rfl⟩
  cases piece with
  | char c => cases leads
  | localToken name =>
    obtain rfl := Option.some.inj leads
    exact ⟨⟨_, rfl⟩, by simp⟩
  | implied name =>
    simp only [target?, Option.bind_eq_bind, Option.bind_eq_some_iff] at leads
    obtain ⟨scale, -, token, -, last⟩ := leads
    obtain rfl := Option.some.inj last
    exact ⟨⟨_, rfl⟩, shape token⟩
  | scaled scale name =>
    simp only [target?, Option.bind_eq_bind, Option.bind_eq_some_iff] at leads
    obtain ⟨token, -, last⟩ := leads
    obtain rfl := Option.some.inj last
    exact ⟨⟨_, rfl⟩, shape token⟩

theorem foldl_of_untargeted {pieces : List Piece}
    (nowhere : ∀ piece ∈ pieces, scope.target? property piece = none) (written : List Char) :
    pieces.foldl (scope.append property) written =
      (pieces.flatMap Piece.source).reverse ++ written := by
  induction pieces generalizing written with
  | nil => rfl
  | cons piece rest ih =>
    obtain ⟨own, others⟩ := List.forall_mem_cons.mp nowhere
    have step : scope.append property written piece = piece.source.reverse ++ written := by
      rw [append, own, List.reverseAux_eq]
    rw [List.foldl_cons, step, ih others, List.flatMap_cons, List.reverse_append, List.append_assoc]

/-- The first reference that leads somewhere shows: in place of its dollar sign, or of the minus
before. -/
theorem untargeted_of_foldl {pieces : List Piece} {written : List Char}
    (same : pieces.foldl (scope.append property) written =
      (pieces.flatMap Piece.source).reverse ++ written) :
    ∀ piece ∈ pieces, scope.target? property piece = none := by
  induction pieces generalizing written with
  | nil => exact List.forall_mem_nil _
  | cons piece rest ih =>
    rw [List.foldl_cons, List.flatMap_cons, List.reverse_append, List.append_assoc] at same
    cases leads : scope.target? property piece with
    | none =>
      have step : scope.append property written piece = piece.source.reverse ++ written := by
        rw [append, leads, List.reverseAux_eq]
      rw [step] at same
      exact List.forall_mem_cons.mpr ⟨leads, ih same⟩
    | some reference =>
      exfalso
      obtain ⟨⟨tail, source⟩, text, starts⟩ := shape_of_target? leads
      have differs {first second : Char} {later before : List Char} (front : List Char)
          (other : first ≠ second) : later ++ first :: before ≠ front ++ second :: before := by
        intro equal
        have ends : later ++ [first] = front ++ [second] := by
          rw [List.append_cons later, List.append_cons front] at equal
          exact List.append_cancel_right equal
        exact other (List.cons.inj (List.append_inj_right' ends rfl)).1
      rw [source, List.reverse_cons, List.append_assoc, List.singleton_append] at same
      rcases scope.append_cases property written piece with step | ⟨before, rfl, step⟩
      · have shows : scope.shown property piece = 'v' :: text := by rw [shown, leads, ← starts]
        rw [step, shows, List.reverse_cons, List.append_assoc, List.singleton_append] at same
        obtain ⟨later, kept⟩ :
            ∃ later, rest.foldl (scope.append property) (text.reverse ++ 'v' :: written) =
            later ++ 'v' :: written := exists_foldl_eq_append (by decide) rest _ _
        rw [kept, ← List.append_assoc] at same
        exact differs _ (by decide) same
      · have opens : ("calc(".toList ++ scope.shown property piece ++ " * -1)".toList).reverse =
            ("alc(".toList ++ scope.shown property piece ++ " * -1)".toList).reverse ++ ['c'] := by
          rw [← List.reverse_cons]
          rfl
        rw [step, opens, List.append_assoc, List.singleton_append] at same
        obtain ⟨later, kept⟩ : ∃ later, rest.foldl (scope.append property)
            (("alc(".toList ++ scope.shown property piece ++ " * -1)".toList).reverse ++
              'c' :: before) =
              later ++ 'c' :: before := exists_foldl_eq_append (by decide) rest _ _
        have equal : later ++ 'c' :: before =
            ((rest.flatMap Piece.source).reverse ++ (tail.reverse ++ ['$'])) ++ '-' :: before := by
          rw [← kept, same]
          simp
        exact differs _ (by decide) equal

/-- Whether the scale that a property implies has a token of a name. -/
def HasImplied (scope : TokenScope) (property name : String) : Prop :=
  ∃ scale token, scope.impliedScale? property = some scale ∧
    scope.theme.get? scale name = some token

/-- Whether a reference names a token that there is. -/
def NamesToken (scope : TokenScope) (property : String) : Piece → Prop
  | .implied name => scope.HasImplied property (String.ofList name)
  | .scaled scale name =>
    ∃ token, scope.theme.get? (String.ofList scale) (String.ofList name) = some token
  | .char _ | .localToken _ => False

theorem target?_eq_none_iff {piece : Piece} :
    scope.target? property piece = none ↔
      (∀ name, piece ≠ .localToken name) ∧ ¬ scope.NamesToken property piece := by
  cases piece with
  | char c => simp [target?, NamesToken]
  | localToken name => simp [target?]
  | implied name => simp [target?, NamesToken, HasImplied]
  | scaled scale name => simp [target?, NamesToken]

theorem resolve_of_unnamed {text : String}
    (unnamed : ¬ scope.HasImplied property (Text.trim text)) :
    scope.resolve property text =
      String.ofList ((pieces text.toList).foldl (scope.append property) []).reverse := by
  have none_named : scope.bareToken? property (Text.trim text) = none := by
    unfold bareToken?
    split
    · rfl
    · simp only [Option.bind_eq_bind, Option.bind_eq_none_iff]
      intro scale implied token found
      exact absurd ⟨scale, token, implied, found⟩ unnamed
  rw [resolve, none_named]

/-- A value that is no token of the scale that its property implies stays as it is just if it holds
no local token and none of its references names a token; and around a blank such values are resolved
each on its own. -/
theorem resolve_by_words (scope : TokenScope) (property : String) :
    (∀ text, ¬ scope.HasImplied property (Text.trim text) →
      (∀ before after, text.toList = before ++ '$' :: '$' :: after → (scanName after).1 = []) →
        (∀ piece ∈ pieces text.toList, ¬ scope.NamesToken property piece) →
          scope.resolve property text = text) ∧
      (∀ text, ¬ scope.HasImplied property (Text.trim text) → scope.resolve property text = text →
        ∀ piece ∈ pieces text.toList,
          (∀ name, piece ≠ .localToken name) ∧ ¬ scope.NamesToken property piece) ∧
      ∀ front c back, Text.isBlank c = true → ¬ scope.HasImplied property (Text.trim front) →
        ¬ scope.HasImplied property (Text.trim back) →
          ¬ scope.HasImplied property (Text.trim (front ++ String.singleton c ++ back)) →
            scope.resolve property (front ++ String.singleton c ++ back) =
              scope.resolve property front ++ String.singleton c ++
                scope.resolve property back := by
  refine ⟨?_, ?_, ?_⟩
  · intro text unnamed no_local no_token
    have nowhere : ∀ piece ∈ pieces text.toList, scope.target? property piece = none := by
      intro piece member
      refine target?_eq_none_iff.mpr ⟨?_, no_token piece member⟩
      rintro name rfl
      obtain ⟨before, after, spelled, named⟩ := exists_of_mem_local member
      exact named (no_local before after spelled)
    rw [resolve_of_unnamed unnamed, foldl_of_untargeted nowhere, flatMap_source, List.append_nil,
      List.reverse_reverse, String.ofList_toList]
  · intro text unnamed unchanged piece member
    apply target?_eq_none_iff.mp
    rw [resolve_of_unnamed unnamed, ← String.toList_inj, String.toList_ofList,
      List.reverse_eq_iff] at unchanged
    have spelled : (pieces text.toList).foldl (scope.append property) [] =
        ((pieces text.toList).flatMap Piece.source).reverse ++ [] := by
      rw [unchanged, flatMap_source, List.append_nil]
    exact untargeted_of_foldl spelled piece member
  · intro front c back blank front_unnamed back_unnamed unnamed
    have whole :
        (front ++ String.singleton c ++ back).toList = front.toList ++ c :: back.toList := by
      simp
    have shown : c ≠ '$' := by
      rintro rfl
      revert blank
      decide
    have stops : Stops (c :: back.toList) := stops_of_isBlank (by simpa using blank)
    have single : (c :: back.toList).head? ≠ some '$' := by simpa using shown
    rw [resolve_of_unnamed unnamed, resolve_of_unnamed front_unnamed,
      resolve_of_unnamed back_unnamed, whole, pieces_append_of_stops stops single,
      pieces_char shown, List.foldl_append, List.foldl_cons, append_char]
    have behind (before : List Char) :
        (pieces back.toList).foldl (scope.append property) (c :: before) =
        (pieces back.toList).foldl (scope.append property) [] ++ c :: before :=
      foldl_append_blank blank (pieces back.toList) [] before
    rw [behind, ← String.toList_inj]
    simp

/-- A reference to no token and dollar signs alone stay, and a negated reference is resolved behind
a blank. -/
theorem words_of_negated :
    let theme : Theme :=
      ⟨"", "", "", .ofList [("space", .ofList [("1", ⟨"", "space", "1", "4px"⟩)])], []⟩
    let scope : TokenScope := ⟨theme, .ofList [("margin", "space")], ""⟩
    scope.resolve "margin" "$$ -$2" = "$$ -$2" ∧
      scope.resolve "margin" "-$1" = "calc(var(--space-1) * -1)" ∧
      (∃ piece ∈ pieces "-$1".toList, scope.NamesToken "margin" piece) ∧
      scope.resolve "margin" ("0" ++ String.singleton ' ' ++ "-$1") =
        scope.resolve "margin" "0" ++ String.singleton ' ' ++ scope.resolve "margin" "-$1" := by
  intro theme scope
  have unnamed {name : String} (missing : theme.get? "space" name = none) :
      ¬ scope.HasImplied "margin" name := by
    rintro ⟨scale, token, implied, found⟩
    obtain rfl : "space" = scale := Option.some.inj implied
    rw [missing] at found
    cases found
  have no_local (before after : List Char)
      (same : "$$ -$2".toList = before ++ '$' :: '$' :: after) :
      (scanName after).1 = [] := by
    have first : before = [] := by
      match before with
      | [] => rfl
      | [_] | [_, _] | [_, _, _] | [_, _, _, _] | [_, _, _, _, _]
      | _ :: _ :: _ :: _ :: _ :: _ :: _ => simp at same
    subst first
    obtain rfl : [' ', '-', '$', '2'] = after := by simpa using same
    decide
  have negated (digit : Char) (scanned : scanName [digit] = ([digit], [])) :
      pieces ['-', '$', digit] = [.char '-', .implied [digit]] := by
    rw [pieces_char (by decide), pieces_implied scanned (by decide), pieces]
  have cut : pieces "$$ -$2".toList = [.char '$', .char '$', .char ' ', .char '-',
      .implied ['2']] := by
    have chars : "$$ -$2".toList = ['$', '$', ' ', '-', '$', '2'] := by decide
    rw [chars, pieces_local_unread (by decide), pieces_char (by decide), negated '2' (by decide)]
  have no_token : ∀ piece ∈ pieces "$$ -$2".toList, ¬ scope.NamesToken "margin" piece := by
    rw [cut]
    have second : ¬ scope.NamesToken "margin" (.implied ['2']) := unnamed rfl
    simpa [NamesToken] using second
  have cut_token : pieces "-$1".toList = [.char '-', .implied ['1']] := negated '1' (by decide)
  obtain ⟨stays, -, words⟩ := resolve_by_words scope "margin"
  refine ⟨stays _ (unnamed rfl) no_local no_token, ?_, ?_, ?_⟩
  · rw [resolve_of_unnamed (unnamed rfl), cut_token]
    rfl
  · rw [cut_token]
    exact ⟨_, List.mem_cons_of_mem _ List.mem_cons_self, "space", _, rfl, rfl⟩
  · exact words "0" ' ' "-$1" (by decide) (unnamed rfl) (unnamed rfl) (unnamed rfl)

end TokenScope

end AtomicCss
