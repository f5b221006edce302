import AtomicCss.Proofs.Theme.Token

/-!
What themes are derived from.

Overrides are accepted just if each of them names a token of the theme. They take the places of
these tokens, so a derived theme has the same tokens by scale and name, and all of them have names
that are allowed.
-/

namespace AtomicCss

namespace Theme

/-- The token of a scale and a name. -/
def lookup (scales : NameMap Scale) (scale name : String) : Option Token :=
  (scales.get? scale).bind (·.get? name)

/-- The scales with a token in the place of one of its names. -/
def place (scales : NameMap Scale) (token : Token) : NameMap Scale :=
  match scales.get? token.scale with
  | none => scales
  | some scale => scales.insert token.scale (scale.insert token.name token)

variable {scales found : NameMap Scale} {token other : Token} {tokens : List Token}

theorem lookup_place (known : (lookup scales token.scale token.name).isSome = true)
    (scale name : String) :
    lookup (place scales token) scale name =
      if (token.scale, token.name) = (scale, name) then some token
      else lookup scales scale name := by
  obtain ⟨old, held⟩ := Option.isSome_iff_exists.mp known
  obtain ⟨tokens, found, -⟩ := Option.bind_eq_some_iff.mp held
  rw [place, found, lookup, NameMap.get?_insert]
  by_cases same : token.scale = scale
  · subst same
    rw [if_pos rfl, Option.bind_some, NameMap.get?_insert, lookup, found]
    by_cases named : token.name = name <;> simp [named]
  · rw [if_neg same, if_neg fun both => same (Prod.mk.inj both).1, lookup]

theorem override_cons (scales : NameMap Scale) (token : Token) (rest : List Token) :
    override scales (token :: rest) =
      if (lookup scales token.scale token.name).isSome then override (place scales token) rest
      else .error (.unknownToken token.scale token.name) := by
  rw [override, lookup, place]
  cases scales.get? token.scale with
  | none => rfl
  | some scale => rfl

theorem isSome_lookup_place (known : (lookup scales token.scale token.name).isSome = true)
    (scale name : String) :
    (lookup (place scales token) scale name).isSome = (lookup scales scale name).isSome := by
  rw [lookup_place known]
  split
  · next same =>
    obtain ⟨rfl, rfl⟩ := Prod.mk.inj same
    exact known.symm
  · rfl

theorem exists_override_iff :
    (∃ found, override scales tokens = .ok found) ↔
      ∀ token ∈ tokens, (lookup scales token.scale token.name).isSome = true := by
  induction tokens generalizing scales with
  | nil => exact ⟨fun _ => List.forall_mem_nil _, fun _ => ⟨scales, rfl⟩⟩
  | cons token rest ih =>
    rw [override_cons, List.forall_mem_cons]
    split
    · next known =>
      rw [ih]
      simp only [isSome_lookup_place known]
      exact (and_iff_right known).symm
    · next unknown =>
      constructor
      · rintro ⟨found, made⟩
        cases made
      · rintro ⟨known, -⟩
        exact absurd known unknown

theorem mem_or_lookup_of_override (made : override scales tokens = .ok found) {scale name : String}
    (held : lookup found scale name = some token) :
    token ∈ tokens ∨ lookup scales scale name = some token := by
  induction tokens generalizing scales with
  | nil =>
    obtain rfl := Except.ok.inj made
    exact .inr held
  | cons first rest ih =>
    rw [override_cons] at made
    split at made
    · next known =>
      rcases ih made with later | placed
      · exact .inl (List.mem_cons_of_mem _ later)
      · rw [lookup_place known] at placed
        split at placed
        · obtain rfl := Option.some.inj placed
          exact .inl List.mem_cons_self
        · exact .inr placed
    · cases made

/-- The tokens that overrides declare. -/
def tokensOf (namePrefix : String) (overrides : ScaleMap) : List Token :=
  (entries overrides).map fun (scale, name, value) => ⟨namePrefix, scale, name, value⟩

section Derive

variable {theme derived : Theme} {name : Option String} {overrides : ScaleMap} {namePrefix : String}

/-- All that a derivation does. -/
theorem derive_eq_ok : theme.derive name overrides namePrefix = .ok derived ↔
    ∃ scales className, override theme.scales (tokensOf namePrefix overrides) = .ok scales ∧
      (∀ given ∈ name, isUsableName given = true) ∧
        className = name.getD (generatedClass namePrefix "theme" overrides) ∧
          derived = ⟨className, className, Name.classSelector className, scales,
            tokensOf namePrefix overrides⟩ := by
  unfold derive
  rw [bind_eq_ok]
  constructor
  · rintro ⟨scales, overridden, named⟩
    cases name with
    | none =>
      obtain rfl := Except.ok.inj named
      exact ⟨scales, _, overridden, nofun, rfl, rfl⟩
    | some given =>
      dsimp only at named
      split at named
      · next usable =>
        obtain rfl := Except.ok.inj named
        refine ⟨scales, given, overridden, ?_, rfl, rfl⟩
        rintro other ⟨⟩
        exact usable
      · cases named
  · rintro ⟨scales, className, overridden, usable, rfl, rfl⟩
    refine ⟨scales, overridden, ?_⟩
    cases name with
    | none => rfl
    | some given =>
      simp only [usable given rfl, if_true]
      rfl

/-- Overrides are accepted just if each names a token, and a name that is given can be used. -/
theorem exists_derive_iff : (∃ derived, theme.derive name overrides namePrefix = .ok derived) ↔
    (∀ entry ∈ entries overrides, (theme.get? entry.1 entry.2.1).isSome = true) ∧
      ∀ given ∈ name, isUsableName given = true := by
  have known : (∀ entry ∈ entries overrides, (theme.get? entry.1 entry.2.1).isSome = true) ↔
      ∃ found, override theme.scales (tokensOf namePrefix overrides) = .ok found := by
    rw [exists_override_iff, tokensOf, List.forall_mem_map]
    rfl
  simp only [known, derive_eq_ok]
  constructor
  · rintro ⟨derived, scales, className, overridden, usable, -, -⟩
    exact ⟨⟨scales, overridden⟩, usable⟩
  · rintro ⟨⟨scales, overridden⟩, usable⟩
    exact ⟨_, scales, _, overridden, usable, rfl, rfl⟩

end Derive

end Theme

namespace Config

open Theme

variable {config : Config} {name : Option String} {overrides : ScaleMap} {derived : Theme}

/-- The tokens that a derived theme declares or holds are those of the configuration by scale and
name. -/
theorem exists_token_of_derive
    (made : config.defaultTheme.derive name overrides config.namePrefix = .ok derived)
    {token : Token}
    (held : token ∈ derived.declared ∨ ∃ scale own, derived.get? scale own = some token) :
    token.namePrefix = config.namePrefix ∧
      ∃ known, config.defaultTheme.get? token.scale token.name = some known := by
  obtain ⟨scales, className, overridden, -, -, rfl⟩ := derive_eq_ok.mp made
  have declared {token : Token} (member : token ∈ tokensOf config.namePrefix overrides) :
      token.namePrefix = config.namePrefix ∧
        ∃ known, config.defaultTheme.get? token.scale token.name = some known := by
    have known := exists_override_iff.mp ⟨scales, overridden⟩ token member
    obtain ⟨entry, -, rfl⟩ := List.mem_map.mp member
    exact ⟨rfl, Option.isSome_iff_exists.mp known⟩
  rcases held with member | ⟨scale, own, found⟩
  · exact declared member
  · rcases mem_or_lookup_of_override overridden found with member | old
    · exact declared member
    · have held : config.defaultTheme.get? scale own = some token := old
      obtain ⟨prefixed, rfl, rfl⟩ := names_of_get? held
      exact ⟨prefixed, token, old⟩

end Config

end AtomicCss
