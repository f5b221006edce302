import AtomicCss.Proofs.Engine.Groups
import AtomicCss.Proofs.Text.Escaping
import AtomicCss.Proofs.Theme.Derivation

/-!
The classes that are generated for overrides.

The class of a theme without a name is a hash of its entries, each written as one text: the scale,
the token and the value, with a dot and an equals sign between them. All of them may hold both
signs, so two entries can share a text: a value can take up what the name of a longer token has
more. Only then do different overrides get one class, and each of their rules applies to the
elements of the other.
-/

namespace AtomicCss

namespace Theme

/-- What stands before the value in the text of an entry. -/
def entryHead (scale name : String) : String := scale ++ "." ++ name ++ "="

/-- The text that is hashed for an entry. -/
def entryText (entry : String × String × String) : String :=
  entryHead entry.1 entry.2.1 ++ entry.2.2

/-- The value of the first entry begins with what the head of the second one has more, and goes on
with its value. -/
def Absorbs (entry other : String × String × String) : Prop :=
  ∃ between, entryHead entry.1 entry.2.1 ++ between = entryHead other.1 other.2.1 ∧
    entry.2.2 = between ++ other.2.2

theorem entryText_eq_iff {entry other : String × String × String} :
    entryText entry = entryText other ↔ Absorbs entry other ∨ Absorbs other entry := by
  rw [entryText, entryText, ← String.toList_inj, String.toList_append, String.toList_append,
    List.append_eq_append_iff]
  constructor
  · rintro (⟨between, longer, value⟩ | ⟨between, longer, value⟩)
    · exact .inl ⟨String.ofList between, String.toList_inj.mp (by simp [longer]),
        String.toList_inj.mp (by simp [value])⟩
    · exact .inr ⟨String.ofList between, String.toList_inj.mp (by simp [longer]),
        String.toList_inj.mp (by simp [value])⟩
  · rintro (⟨between, longer, value⟩ | ⟨between, longer, value⟩)
    · exact .inl ⟨between.toList, by rw [← longer, String.toList_append],
        by rw [value, String.toList_append]⟩
    · exact .inr ⟨between.toList, by rw [← longer, String.toList_append],
        by rw [value, String.toList_append]⟩

theorem classParts_eq_iff (kind : String) {overrides other : ScaleMap} :
    classParts kind overrides = classParts kind other ↔
      List.Forall₂ (fun entry second => Absorbs entry second ∨ Absorbs second entry)
        (entries overrides) (entries other) := by
  have parts (scales : ScaleMap) :
      classParts kind scales = kind :: (entries scales).map entryText := rfl
  rw [parts, parts, List.cons_inj_right, ← List.forall₂_eq_eq_eq, List.forall₂_map_left_iff,
    List.forall₂_map_right_iff]
  simp only [entryText_eq_iff]

theorem generatedClass_injective {namePrefix kind : String} {overrides other : ScaleMap}
    (same : generatedClass namePrefix kind overrides = generatedClass namePrefix kind other) :
    Hash.content (classParts kind overrides) = Hash.content (classParts kind other) :=
  UInt64.toNat_inj.mp (Text.Base36.encode_injective
    (String.append_right_inj _ |>.mp (AtomicIndex.prefixed_injective same)))

/-- A rule with the selector applies to elements of the class. -/
def Selects (selector className : String) : Prop :=
  ∃ written, selector = "." ++ written ∧ Name.unescape written = className

theorem selects_classSelector {name className : String} :
    Selects (Name.classSelector name) className ↔ name = className := by
  have reads := (Name.spells_escape name).reads
  constructor
  · rintro ⟨written, selector, read⟩
    rw [← String.append_right_inj _ |>.mp selector, reads] at read
    exact read
  · rintro rfl
    exact ⟨_, rfl, reads⟩

/-- Overrides of one token. -/
def overriding (scale name value : String) : ScaleMap := .ofList [(scale, .ofList [(name, value)])]

theorem entries_overriding (scale name value : String) :
    entries (overriding scale name value) = [(scale, name, value)] := rfl

end Theme

namespace Config

open Theme

variable {config : Config}

/-- Overrides that a theme without a name can be derived from. -/
def Accepts (config : Config) (overrides : ScaleMap) : Prop :=
  ∃ theme, config.defaultTheme.derive none overrides config.namePrefix = .ok theme

theorem accepts_iff {overrides : ScaleMap} : config.Accepts overrides ↔
    ∀ entry ∈ entries overrides, (config.defaultTheme.get? entry.1 entry.2.1).isSome = true := by
  rw [Accepts, exists_derive_iff]
  exact and_iff_left nofun

/-- No head of a token begins the head of another one. -/
def HeadsApart (config : Config) : Prop :=
  ∀ scale name otherScale otherName, (config.defaultTheme.get? scale name).isSome = true →
    (config.defaultTheme.get? otherScale otherName).isSome = true →
      (entryHead scale name).toList <+: (entryHead otherScale otherName).toList →
        (scale, name) = (otherScale, otherName)

theorem eq_of_absorbs (apart : config.HeadsApart) {entry other : String × String × String}
    (known : (config.defaultTheme.get? entry.1 entry.2.1).isSome = true)
    (known_other : (config.defaultTheme.get? other.1 other.2.1).isSome = true)
    (absorbs : Absorbs entry other) : entry = other := by
  obtain ⟨scale, name, value⟩ := entry
  obtain ⟨otherScale, otherName, otherValue⟩ := other
  obtain ⟨between, longer, own⟩ := absorbs
  have begins : (entryHead scale name).toList <+: (entryHead otherScale otherName).toList :=
    ⟨between.toList, by rw [← String.toList_append]; exact congrArg String.toList longer⟩
  obtain ⟨rfl, rfl⟩ := Prod.mk.inj (apart _ _ _ _ known known_other begins)
  obtain rfl : between = "" := by simpa using longer
  rw [String.empty_append] at own
  exact congrArg (scale, name, ·) own

/-- Overrides hashed alike have the same entries just if the heads of all tokens are apart. -/
theorem headsApart_iff : config.HeadsApart ↔
    ∀ overrides other, config.Accepts overrides → config.Accepts other →
      entries overrides ≠ entries other →
        classParts "theme" overrides ≠ classParts "theme" other := by
  constructor
  · intro apart overrides other accepted accepted_other different same
    apply different
    have known := accepts_iff.mp accepted
    have known_other := accepts_iff.mp accepted_other
    have alike := (classParts_eq_iff "theme").mp same
    rw [← List.forall₂_eq_eq_eq]
    rw [List.forall₂_iff_zip] at alike ⊢
    refine ⟨alike.1, fun {entry second} member => ?_⟩
    obtain ⟨inside, within⟩ := List.of_mem_zip member
    rcases alike.2 member with absorbs | absorbs
    · exact eq_of_absorbs apart (known entry inside) (known_other second within) absorbs
    · exact (eq_of_absorbs apart (known_other second within) (known entry inside) absorbs).symm
  · intro different scale name otherScale otherName known known_other begins
    obtain ⟨between, longer⟩ := begins
    by_contra other_token
    have accepted (scale name value : String)
        (known : (config.defaultTheme.get? scale name).isSome = true) :
        config.Accepts (overriding scale name value) :=
      accepts_iff.mpr (List.forall_mem_singleton.mpr known)
    have absorbs : Absorbs (scale, name, String.ofList between) (otherScale, otherName, "") :=
      ⟨String.ofList between, String.toList_inj.mp (by simpa using longer),
        (String.append_empty).symm⟩
    apply different (overriding scale name (String.ofList between))
      (overriding otherScale otherName "") (accepted _ _ _ known) (accepted _ _ _ known_other)
    · intro same
      rw [entries_overriding, entries_overriding] at same
      obtain ⟨same_scale, rest⟩ := Prod.mk.inj (List.cons.inj same).1
      exact other_token (congrArg₂ Prod.mk same_scale (Prod.mk.inj rest).1)
    · rw [classParts_eq_iff "theme", entries_overriding, entries_overriding]
      exact .cons (.inl absorbs) .nil

/-- Scales without a dot and tokens without an equals sign keep all heads apart. -/
theorem headsApart_of_plain (plain : ∀ scale name,
    (config.defaultTheme.get? scale name).isSome = true →
    '.' ∉ scale.toList ∧ '=' ∉ name.toList) : config.HeadsApart := by
  intro scale name otherScale otherName known known_other begins
  have toList_head (scale name : String) :
      (entryHead scale name).toList = scale.toList ++ '.' :: (name.toList ++ '=' :: []) := by
    simp [entryHead]
  obtain ⟨between, longer⟩ := begins
  have unique {separator : Char} {front back other rest : List Char} (first : separator ∉ front)
      (second : separator ∉ other)
        (same : front ++ separator :: back = other ++ separator :: rest) :
      front = other ∧ back = rest := by
    rcases append_cons_eq_append_cons.mp same with equal | ⟨middle, rfl, -⟩ | ⟨middle, rfl, -⟩
    · exact equal
    · simp at second
    · simp at first
  obtain ⟨undotted, unequal⟩ := plain scale name known
  obtain ⟨other_undotted, other_unequal⟩ := plain otherScale otherName known_other
  rw [toList_head, toList_head, List.append_assoc, List.cons_append, List.append_assoc,
    List.cons_append] at longer
  obtain ⟨same_scale, rest⟩ := unique undotted other_undotted longer
  obtain ⟨same_name, -⟩ := unique unequal other_unequal rest
  rw [String.toList_inj.mp same_scale, String.toList_inj.mp same_name]

end Config

namespace Engine

open Theme

/-- Overrides without a name get one class just if their entries absorb each other in turn, unless
the hashes of different entries meet; and each rule applies to the elements of the other theme just
then. All overrides with different entries are hashed differently just if no head of a token begins
the head of another one. -/
theorem generated_classes (config : Config) :
    (∀ overrides other first second,
      config.defaultTheme.derive none overrides config.namePrefix = .ok first →
        config.defaultTheme.derive none other config.namePrefix = .ok second →
          Hash.Apart [classParts "theme" overrides, classParts "theme" other] →
            (first.className = second.className ↔
              List.Forall₂ (fun entry second => Absorbs entry second ∨ Absorbs second entry)
                (entries overrides) (entries other)) ∧
            (Selects first.selector second.className ↔ first.className = second.className) ∧
            (Selects second.selector first.className ↔ first.className = second.className)) ∧
      ((∀ overrides other, config.Accepts overrides → config.Accepts other →
          entries overrides ≠ entries other →
            classParts "theme" overrides ≠ classParts "theme" other) ↔
        config.HeadsApart) := by
  refine ⟨?_, Config.headsApart_iff.symm⟩
  intro overrides other first second made made_other apart
  obtain ⟨scales, className, -, -, named, rfl⟩ := derive_eq_ok.mp made
  obtain ⟨otherScales, otherName, -, -, other_named, rfl⟩ := derive_eq_ok.mp made_other
  rw [Option.getD_none] at named other_named
  subst named other_named
  refine ⟨?_, selects_classSelector, selects_classSelector.trans eq_comm⟩
  rw [← classParts_eq_iff "theme"]
  constructor
  · intro same
    exact apart _ List.mem_cons_self _ (List.mem_cons_of_mem _ List.mem_cons_self)
      (generatedClass_injective same)
  · intro same
    exact congrArg (fun parts => Name.prefixed config.namePrefix
      ("t-" ++ Text.Base36.encode (Hash.content parts).toNat)) same

/-- A dot in a token and a dot in a scale: overrides of different tokens get one class, and the rule
of each declares its token on the elements of the other theme. -/
theorem generated_classes_of_dots :
    let config : Config :=
      ⟨"", .ofList [("a", .ofList [("b.c", "1px")]), ("a.b", .ofList [("c", "1px")])],
      [], .empty, .empty⟩
    let overrides := overriding "a" "b.c" "2px"
    let other := overriding "a.b" "c" "2px"
    config.validate = .ok config ∧ entries overrides ≠ entries other ∧ ¬ config.HeadsApart ∧
      ∃ first second, config.defaultTheme.derive none overrides "" = .ok first ∧
        config.defaultTheme.derive none other "" = .ok second ∧
        themeRule config first = ".t-4by7bhk9bbym\x7b--a-b.c:2px\x7d" ∧
        themeRule config second = ".t-4by7bhk9bbym\x7b--a.b-c:2px\x7d" ∧
        Selects first.selector second.className ∧ Selects second.selector first.className := by
  intro config overrides other
  have valid : config.validate = .ok config :=
    Config.validate_eq_ok.mpr ⟨rfl, rfl, rfl, List.forall_mem_nil _, rfl⟩
  obtain ⟨classes, heads⟩ := generated_classes config
  have different : entries overrides ≠ entries other := by decide
  have same : classParts "theme" overrides = classParts "theme" other := by decide
  obtain ⟨first, made⟩ : ∃ first, config.defaultTheme.derive none overrides "" = .ok first :=
    ⟨_, rfl⟩
  obtain ⟨second, made_other⟩ : ∃ second, config.defaultTheme.derive none other "" = .ok second :=
    ⟨_, rfl⟩
  have apart : Hash.Apart [classParts "theme" overrides, classParts "theme" other] := by
    rw [← same]
    intro left inside right within _
    simp only [List.mem_cons, List.not_mem_nil, or_false, or_self] at inside within
    rw [inside, within]
  obtain ⟨named, selects, selected⟩ := classes overrides other first second made made_other apart
  have one := named.mpr ((classParts_eq_iff "theme").mp same)
  refine ⟨valid, different, ?_, first, second, made, made_other, ?_, ?_, selects.mpr one,
    selected.mpr one⟩
  · intro headsApart
    exact heads.mpr headsApart overrides other ⟨first, made⟩ ⟨second, made_other⟩ different same
  · cases made
    decide +kernel
  · cases made_other
    decide +kernel

end Engine

end AtomicCss
