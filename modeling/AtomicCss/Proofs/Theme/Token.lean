import AtomicCss.Proofs.Config.Validity
import AtomicCss.Proofs.NameMap
import AtomicCss.Proofs.Text.ClassName

/-!
Tokens and their custom properties.

The name of a custom property joins a scale and a token with a dash. As both may hold dashes
themselves, the names of two tokens are the same if the dash is read at another place; otherwise
they tell tokens apart.
-/

namespace AtomicCss

theorem append_cons_eq_append_cons {α : Type} {separator : α} {front back other rest : List α} :
    front ++ separator :: back = other ++ separator :: rest ↔
      (front = other ∧ back = rest) ∨
        (∃ middle, other = front ++ separator :: middle ∧ back = middle ++ separator :: rest) ∨
        ∃ middle, front = other ++ separator :: middle ∧ rest = middle ++ separator :: back := by
  rw [List.append_eq_append_iff]
  constructor
  · rintro (⟨between, longer, tail⟩ | ⟨between, longer, tail⟩)
    · cases between with
      | nil => exact .inl ⟨by simpa using longer.symm, (List.cons.inj tail).2⟩
      | cons c middle =>
        obtain ⟨rfl, after⟩ := List.cons.inj tail
        exact .inr (.inl ⟨middle, longer, after⟩)
    · cases between with
      | nil => exact .inl ⟨by simpa using longer, (List.cons.inj tail).2.symm⟩
      | cons c middle =>
        obtain ⟨rfl, after⟩ := List.cons.inj tail
        exact .inr (.inr ⟨middle, longer, after⟩)
  · rintro (⟨rfl, rfl⟩ | ⟨middle, rfl, rfl⟩ | ⟨middle, rfl, rfl⟩)
    · exact .inl ⟨[], by simp, rfl⟩
    · exact .inl ⟨separator :: middle, rfl, rfl⟩
    · exact .inr ⟨separator :: middle, rfl, rfl⟩

namespace Token

/-- The scale of the second token goes on, behind a dash, with what begins the name of the first. -/
def Clashes (first second : Token) : Prop :=
  ∃ middle, second.scale = first.scale ++ "-" ++ middle ∧ first.name = middle ++ "-" ++ second.name

theorem toList_dash (front back : String) :
    (front ++ "-" ++ back).toList = front.toList ++ '-' :: back.toList := by
  simp

theorem clashes_iff {first second : Token} : first.Clashes second ↔
    ∃ middle, second.scale.toList = first.scale.toList ++ '-' :: middle ∧
      first.name.toList = middle ++ '-' :: second.name.toList := by
  constructor
  · rintro ⟨middle, scale, name⟩
    exact ⟨middle.toList, by rw [scale, toList_dash], by rw [name, toList_dash]⟩
  · rintro ⟨middle, scale, name⟩
    refine ⟨String.ofList middle, ?_, ?_⟩
    · rw [← String.toList_inj, toList_dash, String.toList_ofList, scale]
    · rw [← String.toList_inj, toList_dash, String.toList_ofList, name]

/-- Tokens with one prefix share their custom property just if they are the same token or clash. -/
theorem property_eq_iff {first second : Token} (same : first.namePrefix = second.namePrefix) :
    first.property = second.property ↔
      (first.scale = second.scale ∧ first.name = second.name) ∨
        first.Clashes second ∨ second.Clashes first := by
  have joined : first.property = second.property ↔
      (first.scale ++ "-" ++ first.name).toList = (second.scale ++ "-" ++ second.name).toList := by
    rw [property, property, same, String.toList_inj]
    constructor
    · intro equal
      exact AtomicIndex.prefixed_injective (String.append_right_inj _ |>.mp equal)
    · exact fun equal => equal ▸ rfl
  rw [joined, toList_dash, toList_dash, append_cons_eq_append_cons, clashes_iff, clashes_iff,
    String.toList_inj, String.toList_inj]

end Token

namespace Theme

theorem get?_register (scales : ScaleMap) (namePrefix scale name : String) :
    (register scales namePrefix).get? scale name =
      ((scales.get? scale).bind (·.get? name)).map (⟨namePrefix, scale, name, ·⟩) := by
  simp only [get?, register, NameMap.get?_mapValues]
  cases scales.get? scale with
  | none => rfl
  | some tokens => exact NameMap.get?_mapValues _ tokens name

/-- No scale declares a token twice. -/
theorem nodup_entries (scales : ScaleMap) :
    ((entries scales).map fun (scale, name, _) => (scale, name)).Nodup := by
  apply List.pairwise_map.mpr
  apply List.pairwise_flatMap.mpr
  constructor
  · intro scale _
    apply List.pairwise_map.mpr
    apply (List.pairwise_map.mp scale.2.nodup_names).imp
    intro first second different same
    exact different (Prod.mk.inj same).2
  · apply (List.pairwise_map.mp scales.nodup_names).imp
    intro first second different left inside right within same
    obtain ⟨token, -, rfl⟩ := List.mem_map.mp inside
    obtain ⟨other, -, rfl⟩ := List.mem_map.mp within
    exact different (Prod.mk.inj same).1

theorem declared_derive {theme derived : Theme} {name : Option String} {overrides : ScaleMap}
    {namePrefix : String} (made : theme.derive name overrides namePrefix = .ok derived) :
    derived.declared =
      (entries overrides).map fun (scale, name, value) => ⟨namePrefix, scale, name, value⟩ := by
  obtain ⟨scales, -, named⟩ := bind_eq_ok.mp made
  cases name with
  | none => rw [← Except.ok.inj named]
  | some name =>
    dsimp only at named
    split at named
    · rw [← Except.ok.inj named]
    · cases named

end Theme

namespace Config

/-- The themes of a configuration: its default theme and those that are derived from it. -/
inductive HasTheme (config : Config) : Theme → Prop where
  | default : HasTheme config config.defaultTheme
  | derived {name overrides theme} :
      config.defaultTheme.derive name overrides config.namePrefix = .ok theme →
        HasTheme config theme

variable {config : Config} {theme : Theme}

theorem HasTheme.declared (owned : config.HasTheme theme) :
    ∃ scales, theme.declared =
      (Theme.entries scales).map fun (scale, name, value) =>
        ⟨config.namePrefix, scale, name, value⟩ := by
  cases owned with
  | default => exact ⟨config.scales, rfl⟩
  | derived made => exact ⟨_, Theme.declared_derive made⟩

theorem HasTheme.namePrefix (owned : config.HasTheme theme) {token : Token}
    (member : token ∈ theme.declared) : token.namePrefix = config.namePrefix := by
  obtain ⟨scales, declares⟩ := owned.declared
  rw [declares] at member
  obtain ⟨entry, -, rfl⟩ := List.mem_map.mp member
  rfl

theorem HasTheme.nodup_names (owned : config.HasTheme theme) :
    (theme.declared.map fun token => (token.scale, token.name)).Nodup := by
  obtain ⟨scales, declares⟩ := owned.declared
  rw [declares, List.map_map]
  exact Theme.nodup_entries scales

theorem names_of_get? {scale name : String} {token : Token}
    (found : config.defaultTheme.get? scale name = some token) :
    token.namePrefix = config.namePrefix ∧ token.scale = scale ∧ token.name = name := by
  rw [defaultTheme, Theme.get?_register] at found
  obtain ⟨value, -, rfl⟩ := Option.map_eq_some_iff.mp found
  exact ⟨rfl, rfl, rfl⟩

theorem isName_of_get? (valid : config.validate = .ok config) {scale name : String} {token : Token}
    (found : config.defaultTheme.get? scale name = some token) : IsName scale ∧ IsName name := by
  rw [defaultTheme, Theme.get?_register] at found
  obtain ⟨value, known, -⟩ := Option.map_eq_some_iff.mp found
  obtain ⟨tokens, scale_found, name_found⟩ := Option.bind_eq_some_iff.mp known
  obtain ⟨own, each⟩ := checkScales_eq_ok.mp (validate_eq_ok.mp valid).2.1 _
    (NameMap.mem_of_get? scale_found)
  exact ⟨own, each name (List.mem_map_of_mem (NameMap.mem_of_get? name_found))⟩

/-- No declaration of a theme replaces another one just if no two of its tokens clash. -/
theorem HasTheme.nodup_properties_iff (owned : config.HasTheme theme) :
    (theme.declared.map (·.property)).Nodup ↔
      theme.declared.Pairwise fun token other => ¬ token.Clashes other ∧ ¬ other.Clashes token := by
  have apart := List.pairwise_map.mp owned.nodup_names
  have each {token other : Token} (inside : token ∈ theme.declared)
      (within : other ∈ theme.declared)
      (different : (token.scale, token.name) ≠ (other.scale, other.name)) :
      token.property ≠ other.property ↔ ¬ token.Clashes other ∧ ¬ other.Clashes token := by
    rw [Ne, Token.property_eq_iff ((owned.namePrefix inside).trans (owned.namePrefix within).symm),
      ← Prod.mk.injEq, or_iff_right different, not_or]
  rw [List.Nodup, List.pairwise_map]
  constructor
  · intro distinct
    exact (apart.and distinct).imp_of_mem fun inside within found =>
      (each inside within found.1).mp found.2
  · intro distinct
    exact (apart.and distinct).imp_of_mem fun inside within found =>
      (each inside within found.1).mpr found.2

/-- Scales without dashes in their names keep all custom properties apart. -/
theorem HasTheme.nodup_properties (owned : config.HasTheme theme)
    (plain : ∀ token ∈ theme.declared, '-' ∉ token.scale.toList) :
    (theme.declared.map (·.property)).Nodup := by
  have apart {token other : Token} (within : other ∈ theme.declared) : ¬ token.Clashes other := by
    intro clashes
    obtain ⟨middle, scale, -⟩ := Token.clashes_iff.mp clashes
    apply plain other within
    rw [scale]
    exact List.mem_append_right _ List.mem_cons_self
  apply owned.nodup_properties_iff.mpr
  exact List.pairwise_of_forall_mem_list fun token inside other within =>
    ⟨apart within, apart inside⟩

/-- Different tokens of a configuration share their custom property just if they clash. So a theme
declares each of its tokens once, and no declaration of it replaces another one unless two of its
tokens clash; and what a theme declares replaces another token of the default theme only if the two
clash. -/
theorem shared_property_iff (config : Config) :
    (∀ scale name otherScale otherName token other,
      config.defaultTheme.get? scale name = some token →
        config.defaultTheme.get? otherScale otherName = some other →
          (scale, name) ≠ (otherScale, otherName) →
            (token.property = other.property ↔ token.Clashes other ∨ other.Clashes token)) ∧
      (∀ theme, config.HasTheme theme →
        (theme.declared.map fun token => (token.scale, token.name)).Nodup ∧
          ((theme.declared.map (·.property)).Nodup ↔
            theme.declared.Pairwise fun token other =>
              ¬ token.Clashes other ∧ ¬ other.Clashes token)) ∧
      ∀ theme, config.HasTheme theme → ∀ token ∈ theme.declared, ∀ scale name other,
        config.defaultTheme.get? scale name = some other →
          (token.property = other.property ↔
            (token.scale, token.name) = (scale, name) ∨ token.Clashes other ∨
              other.Clashes token) := by
  refine ⟨?_, fun theme owned => ⟨owned.nodup_names, owned.nodup_properties_iff⟩, ?_⟩
  · intro scale name otherScale otherName token other found found_other different
    obtain ⟨same, rfl, rfl⟩ := names_of_get? found
    obtain ⟨same_other, rfl, rfl⟩ := names_of_get? found_other
    rw [Token.property_eq_iff (same.trans same_other.symm), ← Prod.mk.injEq, or_iff_right different]
  · intro theme owned token member scale name other found
    obtain ⟨same, rfl, rfl⟩ := names_of_get? found
    rw [Token.property_eq_iff ((owned.namePrefix member).trans same.symm), ← Prod.mk.injEq]

/-- A dash in a scale and a dash in a token: the two tokens have one custom property, the default
theme declares it twice, and a theme that overrides one of them replaces the other too. -/
theorem shared_property_of_dashes :
    let config : Config :=
      ⟨"", .ofList [("a", .ofList [("b-c", "1px")]), ("a-b", .ofList [("c", "2px")])],
      [], .empty, .empty⟩
    let token : Token := ⟨"", "a", "b-c", "1px"⟩
    let other : Token := ⟨"", "a-b", "c", "2px"⟩
    config.validate = .ok config ∧ config.defaultTheme.get? "a" "b-c" = some token ∧
      config.defaultTheme.get? "a-b" "c" = some other ∧ token.Clashes other ∧
      token.property = other.property ∧ config.defaultTheme.declared = [token, other] ∧
      ¬ (config.defaultTheme.declared.map (·.property)).Nodup ∧
      ∃ theme, config.defaultTheme.derive none
          (.ofList [("a", .ofList [("b-c", "3px")])]) "" = .ok theme ∧
        ∃ declared ∈ theme.declared, (declared.scale, declared.name) ≠ ("a-b", "c") ∧
          declared.property = other.property := by
  intro config token other
  have valid : config.validate = .ok config :=
    validate_eq_ok.mpr ⟨rfl, rfl, rfl, List.forall_mem_nil _, rfl⟩
  obtain ⟨shared, themes, across⟩ := shared_property_iff config
  have found : config.defaultTheme.get? "a" "b-c" = some token := rfl
  have found_other : config.defaultTheme.get? "a-b" "c" = some other := rfl
  have clashes : token.Clashes other := ⟨"b", rfl, rfl⟩
  have declared : config.defaultTheme.declared = [token, other] := rfl
  refine ⟨valid, found, found_other, clashes, ?_, declared, ?_, ?_⟩
  · exact (shared _ _ _ _ _ _ found found_other (by decide)).mpr (.inl clashes)
  · rw [(themes _ .default).2, declared, List.pairwise_pair]
    exact fun apart => apart.1 clashes
  · obtain ⟨theme, made⟩ : ∃ theme, config.defaultTheme.derive none
        (.ofList [("a", .ofList [("b-c", "3px")])]) "" = .ok theme := ⟨_, rfl⟩
    have member : (⟨"", "a", "b-c", "3px"⟩ : Token) ∈ theme.declared := by
      rw [Theme.declared_derive made]
      exact List.mem_cons_self
    refine ⟨theme, made, _, member, by decide, ?_⟩
    exact (across theme (.derived made) _ member _ _ _ found_other).mpr
      (.inr (.inl ⟨"b", rfl, rfl⟩))

end Config

end AtomicCss
