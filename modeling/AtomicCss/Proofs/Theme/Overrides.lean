import AtomicCss.Proofs.Theme.Derivation

/-!
A derived theme overrides tokens and never adds one.

Putting a token in the place of one that is there leaves every name in its place, so all scales and
tokens of a theme stay. An override map holds each pair of a scale and a token once. So the order in
which overrides are put in place shows only where they are refused: the first pair that the theme
does not have is named.
-/

namespace AtomicCss

namespace NameMap

variable {α β : Type}

/-- Replacing a value shows only where values are looked at. -/
theorem map_toList_insert {map : NameMap α} {name : String} {old value : α}
    (found : map.get? name = some old) (view : String × α → β)
    (same : view (name, value) = view (name, old)) :
    (map.insert name value).toList.map view = map.toList.map view := by
  have present : (name, old) ∈ map.entries := mem_of_get? found
  obtain ⟨entries, rising⟩ := map
  simp only [toList, insert]
  clear found
  induction entries with
  | nil => cases present
  | cons head rest ih =>
    obtain ⟨above, rest_rising⟩ := List.pairwise_cons.mp rising
    rw [insertEntry]
    rcases List.mem_cons.mp present with here | there
    · subst here
      rw [if_neg (String.lt_irrefl _), if_pos rfl, List.map_cons, List.map_cons, same]
    · have less : head.1 < name := above _ there
      have behind : ¬ name < head.1 :=
        fun greater => String.lt_irrefl _ (String.lt_trans less greater)
      have different : name ≠ head.1 := fun equal => String.lt_irrefl _ (equal ▸ less)
      rw [if_neg behind, if_neg different, List.map_cons, List.map_cons, ih rest_rising there]

theorem names_insert {map : NameMap α} {name : String} {old : α} (found : map.get? name = some old)
    (value : α) : (map.insert name value).names = map.names :=
  map_toList_insert found Prod.fst rfl

end NameMap

namespace Theme

/-- The value that overrides give to a token. -/
def override? (overrides : ScaleMap) (scale name : String) : Option String :=
  (overrides.get? scale).bind (·.get? name)

/-- The order of tokens by their scale, and by their name within a scale. -/
def Precedes (first second : String × String) : Prop :=
  first.1 < second.1 ∨ first.1 = second.1 ∧ first.2 < second.2

theorem not_precedes_self (pair : String × String) : ¬ Precedes pair pair := by
  rintro (less | ⟨-, less⟩) <;> exact String.lt_irrefl _ less

theorem Precedes.trans {first second third : String × String} (before : Precedes first second)
    (after : Precedes second third) : Precedes first third := by
  rcases before with less | ⟨same, less⟩
  · rcases after with greater | ⟨equal, -⟩
    · exact .inl (String.lt_trans less greater)
    · exact .inl (equal ▸ less)
  · rcases after with greater | ⟨equal, greater⟩
    · exact .inl (same ▸ greater)
    · exact .inr ⟨same.trans equal, String.lt_trans less greater⟩

/-- All scales in order, and the names of the tokens of each. -/
def outline (scales : NameMap Scale) : List (String × List String) :=
  scales.toList.map fun (scale, tokens) => (scale, tokens.names)

section Entries

variable {overrides : ScaleMap}

theorem mem_entries {scale name value : String} :
    (scale, name, value) ∈ entries overrides ↔ override? overrides scale name = some value := by
  rw [override?, Option.bind_eq_some_iff]
  simp only [entries, List.mem_flatMap, List.mem_map, NameMap.get?_eq_some, NameMap.toList,
    Prod.mk.injEq]
  constructor
  · rintro ⟨entry, inside, token, within, rfl, rfl, rfl⟩
    exact ⟨entry.2, inside, within⟩
  · rintro ⟨tokens, inside, within⟩
    exact ⟨(scale, tokens), inside, (name, value), within, rfl, rfl, rfl⟩

theorem entries_ordered (overrides : ScaleMap) : (entries overrides).Pairwise fun first second =>
    Precedes (first.1, first.2.1) (second.1, second.2.1) := by
  apply List.pairwise_flatMap.mpr
  constructor
  · intro scale _
    apply List.pairwise_map.mpr
    exact scale.2.rising.imp fun less => .inr ⟨rfl, less⟩
  · apply overrides.rising.imp
    intro first second less left inside right within
    obtain ⟨token, -, rfl⟩ := List.mem_map.mp inside
    obtain ⟨other, -, rfl⟩ := List.mem_map.mp within
    exact .inl less

theorem tokensOf_ordered (namePrefix : String) (overrides : ScaleMap) :
    (tokensOf namePrefix overrides).Pairwise fun first second =>
      Precedes (first.scale, first.name) (second.scale, second.name) :=
  List.pairwise_map.mpr (entries_ordered overrides)

theorem mem_tokensOf {namePrefix : String} {token : Token} :
    token ∈ tokensOf namePrefix overrides ↔
      token.namePrefix = namePrefix ∧
        override? overrides token.scale token.name = some token.value := by
  rw [tokensOf, List.mem_map]
  constructor
  · rintro ⟨entry, member, rfl⟩
    exact ⟨rfl, mem_entries.mp member⟩
  · rintro ⟨rfl, given⟩
    exact ⟨(token.scale, token.name, token.value), mem_entries.mpr given, rfl⟩

end Entries

section Override

variable {scales found : NameMap Scale} {tokens : List Token} {token : Token}

theorem outline_place (known : (lookup scales token.scale token.name).isSome = true) :
    outline (place scales token) = outline scales := by
  obtain ⟨old, held⟩ := Option.isSome_iff_exists.mp known
  obtain ⟨tokens, inside, named⟩ := Option.bind_eq_some_iff.mp held
  rw [place, inside]
  apply NameMap.map_toList_insert inside _
  simp only [NameMap.names_insert named]

theorem outline_override (made : override scales tokens = .ok found) :
    outline found = outline scales := by
  induction tokens generalizing scales with
  | nil => rw [← Except.ok.inj made]
  | cons token rest ih =>
    rw [override_cons] at made
    split at made
    · next known => rw [ih made, outline_place known]
    · cases made

/-- What overrides of other tokens leave. -/
theorem lookup_override_of_apart (made : override scales tokens = .ok found) {scale name : String}
    (apart : ∀ token ∈ tokens, (token.scale, token.name) ≠ (scale, name)) :
    lookup found scale name = lookup scales scale name := by
  induction tokens generalizing scales with
  | nil => rw [← Except.ok.inj made]
  | cons token rest ih =>
    obtain ⟨different, apart⟩ := List.forall_mem_cons.mp apart
    rw [override_cons] at made
    split at made
    · next known => rw [ih made apart, lookup_place known, if_neg different]
    · cases made

theorem lookup_override_of_mem (made : override scales tokens = .ok found)
    (distinct : tokens.Pairwise fun first second =>
      (second.scale, second.name) ≠ (first.scale, first.name))
    (member : token ∈ tokens) : lookup found token.scale token.name = some token := by
  induction tokens generalizing scales with
  | nil => cases member
  | cons first rest ih =>
    obtain ⟨apart, distinct⟩ := List.pairwise_cons.mp distinct
    rw [override_cons] at made
    split at made
    · next known =>
      rcases List.mem_cons.mp member with rfl | later
      · rw [lookup_override_of_apart made apart, lookup_place known, if_pos rfl]
      · exact ih made distinct later
    · cases made

/-- Overrides are refused at the first of them that names no token. -/
theorem override_eq_error {error : StyleError} :
    override scales tokens = .error error ↔
      ∃ front token back, tokens = front ++ token :: back ∧
      (∀ known ∈ front, (lookup scales known.scale known.name).isSome = true) ∧
        lookup scales token.scale token.name = none ∧
          error = .unknownToken token.scale token.name := by
  induction tokens generalizing scales with
  | nil => simp [override]
  | cons first rest ih =>
    rw [override_cons]
    split
    · next known =>
      rw [ih]
      have kept (scale name : String) :
          lookup (place scales first) scale name = none ↔ lookup scales scale name = none := by
        rw [← Option.isNone_iff_eq_none, ← Option.isNone_iff_eq_none, ← Option.not_isSome,
          ← Option.not_isSome, isSome_lookup_place known]
      simp only [isSome_lookup_place known, kept]
      constructor
      · rintro ⟨front, token, back, rfl, accepted, unknown, named⟩
        exact ⟨first :: front, token, back, rfl, List.forall_mem_cons.mpr ⟨known, accepted⟩,
          unknown, named⟩
      · rintro ⟨front, token, back, listed, accepted, unknown, named⟩
        cases front with
        | nil =>
          obtain ⟨rfl, rfl⟩ := List.cons.inj listed
          simp [unknown] at known
        | cons head front =>
          obtain ⟨rfl, rfl⟩ := List.cons.inj listed
          exact ⟨front, token, back, rfl, (List.forall_mem_cons.mp accepted).2, unknown, named⟩
    · next unknown =>
      have absent : lookup scales first.scale first.name = none := by simpa using unknown
      constructor
      · intro refused
        exact ⟨[], first, rest, rfl, List.forall_mem_nil _, absent, (Except.error.inj refused).symm⟩
      · rintro ⟨front, token, back, listed, accepted, -, named⟩
        cases front with
        | nil =>
          obtain ⟨rfl, rfl⟩ := List.cons.inj listed
          rw [named]
        | cons head front =>
          obtain ⟨rfl, rfl⟩ := List.cons.inj listed
          exact absurd (accepted _ List.mem_cons_self) unknown

end Override

/-- The theme has no such token, and of all overrides that name none this one comes first. -/
structure IsFirstUnknown (theme : Theme) (overrides : ScaleMap) (scale name : String) : Prop where
  given : (override? overrides scale name).isSome = true
  unknown : theme.get? scale name = none
  first : ∀ otherScale otherName, (override? overrides otherScale otherName).isSome = true →
    Precedes (otherScale, otherName) (scale, name) → (theme.get? otherScale otherName).isSome = true

/-- The derived theme has the scales and tokens of the other theme, with the overrides in their
places, and declares the overrides alone, each under the custom property that the other theme
declares. -/
structure IsOverriddenBy (theme : Theme) (namePrefix : String) (overrides : ScaleMap)
    (derived : Theme) :
    Prop where
  outline : outline derived.scales = outline theme.scales
  get? : ∀ scale name, derived.get? scale name = match override? overrides scale name with
    | some value => some ⟨namePrefix, scale, name, value⟩
    | none => theme.get? scale name
  mem_declared : ∀ token, token ∈ derived.declared ↔
    token.namePrefix = namePrefix ∧ override? overrides token.scale token.name = some token.value
  ordered : derived.declared.Pairwise fun first second =>
    Precedes (first.scale, first.name) (second.scale, second.name)
  property : ∀ token ∈ derived.declared, ∃ own ∈ theme.declared,
    own.scale = token.scale ∧ own.name = token.name ∧ own.property = token.property

section Derive

variable {theme derived : Theme} {overrides : ScaleMap} {namePrefix : String} {name : Option String}
  {scale token : String}

theorem derive_eq_unknown :
    theme.derive name overrides namePrefix = .error (.unknownToken scale token) ↔
      override theme.scales (tokensOf namePrefix overrides) = .error
        (.unknownToken scale token) := by
  unfold derive
  rw [bind_eq_error]
  constructor
  · rintro (refused | ⟨scales, -, named⟩)
    · exact refused
    · cases name with
      | none => cases named
      | some given =>
        dsimp only at named
        split at named <;> cases named
  · exact .inl

/-- The refused override is the first one that names no token. -/
theorem override_tokensOf_eq_unknown :
    override theme.scales (tokensOf namePrefix overrides) = .error (.unknownToken scale token) ↔
      theme.IsFirstUnknown overrides scale token := by
  have ordered := tokensOf_ordered namePrefix overrides
  rw [override_eq_error]
  constructor
  · rintro ⟨front, refused, back, listed, accepted, unknown, named⟩
    obtain ⟨rfl, rfl⟩ := StyleError.unknownToken.inj named
    rw [listed] at ordered
    have behind := (List.pairwise_cons.mp (List.pairwise_append.mp ordered).2.1).1
    have member : refused ∈ tokensOf namePrefix overrides :=
      listed ▸ List.mem_append_right _ List.mem_cons_self
    refine ⟨?_, unknown, ?_⟩
    · rw [(mem_tokensOf.mp member).2]
      rfl
    · intro otherScale otherName overridden precedes
      obtain ⟨value, given⟩ := Option.isSome_iff_exists.mp overridden
      have inside : ⟨namePrefix, otherScale, otherName, value⟩ ∈ tokensOf namePrefix overrides :=
        mem_tokensOf.mpr ⟨rfl, given⟩
      rw [listed] at inside
      rcases List.mem_append.mp inside with before | after
      · exact accepted _ before
      · rcases List.mem_cons.mp after with rfl | later
        · exact absurd precedes (not_precedes_self _)
        · exact absurd (precedes.trans (behind _ later)) (not_precedes_self _)
  · rintro ⟨overridden, unknown, first⟩
    obtain ⟨value, given⟩ := Option.isSome_iff_exists.mp overridden
    have member : ⟨namePrefix, scale, token, value⟩ ∈ tokensOf namePrefix overrides :=
      mem_tokensOf.mpr ⟨rfl, given⟩
    obtain ⟨front, back, listed⟩ := List.append_of_mem member
    refine ⟨front, _, back, listed, ?_, unknown, rfl⟩
    intro known before
    rw [listed] at ordered
    have precedes := (List.pairwise_append.mp ordered).2.2 known before _ List.mem_cons_self
    have inside : known ∈ tokensOf namePrefix overrides := listed ▸ List.mem_append_left _ before
    apply first known.scale known.name _ precedes
    rw [(mem_tokensOf.mp inside).2]
    rfl

theorem isOverriddenBy_of_derive {scales : ScaleMap}
    (made : (register scales namePrefix).derive name overrides namePrefix = .ok derived) :
    (register scales namePrefix).IsOverriddenBy namePrefix overrides derived := by
  obtain ⟨placed, className, overridden, -, -, rfl⟩ := derive_eq_ok.mp made
  have ordered := tokensOf_ordered namePrefix overrides
  have distinct := ordered.imp fun {first second : Token} before
      (same : (second.scale, second.name) = (first.scale, first.name)) =>
    not_precedes_self _ (same ▸ before)
  refine ⟨outline_override overridden, ?_, fun token => mem_tokensOf, ordered, ?_⟩
  · intro scale name
    cases given : override? overrides scale name with
    | some value =>
      have member : ⟨namePrefix, scale, name, value⟩ ∈ tokensOf namePrefix overrides :=
        mem_tokensOf.mpr ⟨rfl, given⟩
      exact lookup_override_of_mem overridden distinct member
    | none =>
      apply lookup_override_of_apart overridden
      intro token member same
      obtain ⟨rfl, rfl⟩ := Prod.mk.inj same
      rw [(mem_tokensOf.mp member).2] at given
      cases given
  · intro token member
    have known := exists_override_iff.mp ⟨placed, overridden⟩ token member
    obtain ⟨own, held⟩ := Option.isSome_iff_exists.mp known
    have found : (register scales namePrefix).get? token.scale token.name = some own := held
    rw [get?_register] at found
    obtain ⟨value, inside, rfl⟩ := Option.map_eq_some_iff.mp found
    have same := (mem_tokensOf.mp member).1
    refine ⟨_, List.mem_map_of_mem (mem_entries.mpr inside), rfl, rfl, ?_⟩
    rw [Token.property, Token.property, same]

/-- Overrides of the default theme are refused just if one of them names no token, and the first
such one is named. All others make a theme, under any name that is one word, or none; and it is the
default theme with the overrides in the places of its tokens. -/
theorem derive_overrides (scales overrides : ScaleMap) (namePrefix : String)
    (name : Option String) :
    let theme := register scales namePrefix
    let outcome := theme.derive name overrides namePrefix
    ((∃ scale token, outcome = .error (.unknownToken scale token)) ↔
        ∃ scale token, (override? overrides scale token).isSome = true ∧
          theme.get? scale token = none) ∧
      (∀ scale token, outcome = .error (.unknownToken scale token) ↔
        theme.IsFirstUnknown overrides scale token) ∧
      ((∃ derived, outcome = .ok derived) ↔
        (∀ scale token, (override? overrides scale token).isSome = true →
          (theme.get? scale token).isSome = true) ∧
          ∀ given ∈ name, given ≠ "" ∧ ∀ c ∈ given.toList, Text.isBlank c = false) ∧
      ∀ derived, outcome = .ok derived → theme.IsOverriddenBy namePrefix overrides derived := by
  intro theme outcome
  have refused (scale token : String) : outcome = .error (.unknownToken scale token) ↔
      theme.IsFirstUnknown overrides scale token :=
    derive_eq_unknown.trans override_tokensOf_eq_unknown
  refine ⟨?_, refused, ?_, fun derived made => isOverriddenBy_of_derive made⟩
  · constructor
    · rintro ⟨scale, token, failed⟩
      have unknown := (refused scale token).mp failed
      exact ⟨scale, token, unknown.given, unknown.unknown⟩
    · rintro ⟨scale, token, overridden, unknown⟩
      obtain ⟨value, given⟩ := Option.isSome_iff_exists.mp overridden
      have member : ⟨namePrefix, scale, token, value⟩ ∈ tokensOf namePrefix overrides :=
        mem_tokensOf.mpr ⟨rfl, given⟩
      cases made : override theme.scales (tokensOf namePrefix overrides) with
      | ok scales =>
        have known := exists_override_iff.mp ⟨scales, made⟩ _ member
        rw [lookup, ← get?, unknown] at known
        cases known
      | error error =>
        obtain ⟨front, first, back, -, -, -, rfl⟩ := override_eq_error.mp made
        exact ⟨first.scale, first.name, derive_eq_unknown.mpr made⟩
  · have usable (given : String) :
        isUsableName given = true ↔ given ≠ "" ∧ ∀ c ∈ given.toList, Text.isBlank c = false := by
      simp [isUsableName, Text.hasBlank]
    simp only [outcome, exists_derive_iff, usable]
    apply and_congr_left
    intro _
    constructor
    · intro known scale token overridden
      obtain ⟨value, given⟩ := Option.isSome_iff_exists.mp overridden
      exact known _ (mem_entries.mpr given)
    · intro known entry member
      apply known
      rw [mem_entries.mp member]
      rfl

/-- A dark theme: a scale without overrides adds nothing, and of two overrides that name no token
the one of the first scale is named. -/
theorem derive_overrides_dark :
    let scales : ScaleMap :=
      .ofList [("colors", .ofList [("foreground", "black"), ("background", "white")]),
      ("space", .ofList [("1", "4px")])]
    let theme := register scales "app"
    let overrides : ScaleMap :=
      .ofList [("colors", .ofList [("foreground", "white")]), ("fonts", .empty)]
    let unknown : ScaleMap := .ofList [("fonts", .ofList [("body", "serif")]),
      ("colors", .ofList [("foreground", "white"), ("brand", "purple")])]
    (∃ derived, theme.derive (some "dark") overrides "app" = .ok derived ∧
      theme.IsOverriddenBy "app" overrides derived ∧ outline derived.scales = outline theme.scales ∧
      derived.get? "colors" "foreground" = some ⟨"app", "colors", "foreground", "white"⟩ ∧
      derived.get? "colors" "background" = theme.get? "colors" "background") ∧
      theme.derive (some "dark") unknown "app" = .error (.unknownToken "colors" "brand") ∧
      theme.IsFirstUnknown unknown "colors" "brand" := by
  intro scales theme overrides unknown
  obtain ⟨-, -, -, derives⟩ := derive_overrides scales overrides "app" (some "dark")
  obtain ⟨-, refuses, -, -⟩ := derive_overrides scales unknown "app" (some "dark")
  obtain ⟨derived, made⟩ : ∃ derived, theme.derive (some "dark") overrides "app" = .ok derived :=
    ⟨_, rfl⟩
  have overridden := derives derived made
  have failed :
      theme.derive (some "dark") unknown "app" = .error (.unknownToken "colors" "brand") := rfl
  refine ⟨⟨derived, made, overridden, overridden.outline, ?_, ?_⟩, failed, (refuses _ _).mp failed⟩
  · exact overridden.get? "colors" "foreground"
  · exact overridden.get? "colors" "background"

end Derive

end Theme

end AtomicCss
