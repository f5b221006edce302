import AtomicCss.Proofs.Config.Validity

/-!
Keys that utilities shadow.

A utility is told from all other keys by its name alone, before selectors are. Validation refuses
names that are empty, hold a blank or begin as at-rules, tokens and some selectors do. So a key of
another meaning is safe from utilities if it begins in one of these ways or holds a blank; any other
one is a name that is accepted.
-/

namespace AtomicCss

theorem KeyKind.of_eq_of_free {utilities : NameMap Utility} {key : String}
    (free : utilities.contains key = false) (value : StyleValue) :
    of utilities key value = of .empty key value := by
  have none_empty : NameMap.contains (.empty : NameMap Utility) key = false := rfl
  simp only [of, free, none_empty]

namespace Config

variable {config : Config} {key : String}

theorem startsWithAny_of_hasPrefix {front : String} {c : Char} {rest : List Char}
    (starts : front.toList = c :: rest) (isMember : Char → Bool) (member : isMember c = true)
    (marked : Text.hasPrefix front key = true) : Text.startsWithAny isMember key = true := by
  rw [Text.hasPrefix, starts] at marked
  obtain ⟨back, spelled⟩ := List.isPrefixOf_iff_prefix.mp marked
  rw [Text.startsWithAny, ← spelled]
  exact member

theorem checkUtilityName_eq_ok : checkUtilityName key = .ok () ↔
    key ≠ "" ∧ Text.startsWithAny reservedStarts.contains key = false ∧
      Text.hasBlank key = false := by
  unfold checkUtilityName
  split
  · next refused =>
    simp only [reduceCtorEq, false_iff]
    rintro ⟨shown, starts, unblank⟩
    simp [shown, starts, unblank] at refused
  · next allowed => simpa [and_assoc] using allowed

theorem checked_of_contains (valid : config.validate = .ok config)
    (known : config.utilities.contains key = true) : checkUtilityName key = .ok () := by
  obtain ⟨utility, found⟩ := Option.isSome_iff_exists.mp known
  exact (validate_eq_ok.mp valid).2.2.2.1 key (NameMap.mem_names_of_get? found)

/-- In a valid configuration the utilities change what a key is just if one of them has its name. -/
theorem of_eq_iff_free (valid : config.validate = .ok config) (value : StyleValue) :
    KeyKind.of config.utilities key value = KeyKind.of .empty key value ↔
      config.utilities.contains key = false := by
  refine ⟨fun same => ?_, fun free => KeyKind.of_eq_of_free free value⟩
  by_contra known
  rw [Bool.not_eq_false] at known
  obtain ⟨-, starts, -⟩ := checkUtilityName_eq_ok.mp (checked_of_contains valid known)
  have no_token : Text.hasPrefix "$$" key = false := by
    by_contra marked
    rw [Bool.not_eq_false] at marked
    have begins := startsWithAny_of_hasPrefix rfl reservedStarts.contains rfl marked
    simp [starts] at begins
  have utility : KeyKind.of config.utilities key value = .utility := by
    simp [KeyKind.of, no_token, known]
  obtain ⟨other, found⟩ := Flatten.known_of_utility (same.symm.trans utility)
  cases found

/-- The configuration whose only utility has the name. -/
def naming (name : String) : Config := { initial with utilities := .ofList [(name, .template [])] }

theorem validate_naming (checked : checkUtilityName key = .ok ()) :
    (naming key).validate = .ok (naming key) :=
  validate_eq_ok.mpr ⟨rfl, rfl, rfl, List.forall_mem_singleton.mpr checked, rfl⟩

theorem contains_naming (name : String) : (naming name).utilities.contains name = true := by
  simp [naming, NameMap.contains, NameMap.ofList, NameMap.insertAll, NameMap.get?_insert]

/-- The key means in every valid configuration what it means without utilities. -/
def IsUnshadowed (key : String) : Prop :=
  ∀ config : Config, config.validate = .ok config →
    ∀ value, KeyKind.of config.utilities key value = KeyKind.of .empty key value

theorem isUnshadowed_iff (shown : key ≠ "") : IsUnshadowed key ↔
    Text.startsWithAny reservedStarts.contains key = true ∨ Text.hasBlank key = true := by
  constructor
  · intro unshadowed
    by_contra admitted
    simp only [not_or, Bool.not_eq_true] at admitted
    have checked := checkUtilityName_eq_ok.mpr ⟨shown, admitted⟩
    have valid := validate_naming checked
    have free := (of_eq_iff_free valid (.text "")).mp (unshadowed _ valid _)
    rw [contains_naming] at free
    cases free
  · rintro refused config valid value
    apply (of_eq_iff_free valid value).mpr
    by_contra known
    rw [Bool.not_eq_false] at known
    obtain ⟨-, starts, unblank⟩ := checkUtilityName_eq_ok.mp (checked_of_contains valid known)
    simp [starts, unblank] at refused

/-- A key is shadowed just where a utility has its name. No utility may have that of an at-rule or a
token; and one may have that of a selector, unless the selector begins with one of the characters
that validation refuses or holds a blank. -/
theorem shadowed_iff (key : String) :
    (∀ config : Config, config.validate = .ok config → ∀ value,
      (KeyKind.of config.utilities key value = KeyKind.of .empty key value ↔
        config.utilities.contains key = false)) ∧
      (Text.hasPrefix "@" key = true ∨ Text.hasPrefix "$$" key = true → IsUnshadowed key) ∧
      (Selector.isKey key = true →
        (IsUnshadowed key ↔
          Text.startsWithAny reservedStarts.contains key = true ∨ Text.hasBlank key = true)) := by
  refine ⟨fun config valid value => of_eq_iff_free valid value, ?_, ?_⟩
  · intro marked
    have begins : Text.startsWithAny reservedStarts.contains key = true := by
      rcases marked with marked | marked <;> exact startsWithAny_of_hasPrefix rfl _ rfl marked
    have shown : key ≠ "" := by
      rintro rfl
      cases begins
    exact (isUnshadowed_iff shown).mpr (.inl begins)
  · intro selector
    apply isUnshadowed_iff
    rintro rfl
    revert selector
    decide

/-- A utility that is named as a class selector makes a utility of that selector in a valid
configuration. -/
theorem shadowed_of_class :
    let config : Config :=
      { initial with utilities := .ofList [(".active", .template [("color", .text "red")])] }
    let value := StyleValue.node [("color", .text "blue")]
    config.validate = .ok config ∧ Selector.isKey ".active" = true ∧
      KeyKind.of config.utilities ".active" value = .utility ∧
      KeyKind.of .empty ".active" value = .descendantSelector ∧ ¬ IsUnshadowed ".active" ∧
      IsUnshadowed "&:hover" ∧ IsUnshadowed "@media print" ∧
      KeyKind.of config.utilities ".other" value = KeyKind.of .empty ".other" value := by
  intro config value
  have valid : config.validate = .ok config :=
    validate_eq_ok.mpr ⟨rfl, rfl, rfl, List.forall_mem_singleton.mpr (by decide), rfl⟩
  obtain ⟨-, -, selector⟩ := shadowed_iff ".active"
  obtain ⟨-, -, hover⟩ := shadowed_iff "&:hover"
  obtain ⟨-, atRule, -⟩ := shadowed_iff "@media print"
  obtain ⟨other, -, -⟩ := shadowed_iff ".other"
  refine ⟨valid, by decide, by decide, by decide, ?_, ?_, ?_, ?_⟩
  · rw [selector (by decide)]
    decide
  · exact (hover (by decide)).mpr (.inl (by decide))
  · exact atRule (.inl (by decide))
  · exact (other config valid value).mpr (by decide)

end Config

end AtomicCss
