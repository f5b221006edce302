import AtomicCss.Config.OfToml
import AtomicCss.Proofs.NameMap
import AtomicCss.Proofs.Rule.Acceptance

/-!
What a configuration that was validated may hold.

Scales, tokens and breakpoints are named by one word without a dollar sign, and no two breakpoints
alike. No utility takes a name that could be an at-rule, so a breakpoint key is never the name of a
utility. And a document declares no functions: all utilities of a configuration that was read from
one are templates.
-/

namespace AtomicCss

namespace Config

theorem validate_eq_ok {config found : Config} :
    config.validate = .ok found ↔
      config.namePrefix.toList.all isPrefixChar = true ∧ checkScales config.scales.toList = .ok () ∧
        checkBreakpoints [] config.breakpoints = .ok () ∧
        (∀ name ∈ config.utilities.names, checkUtilityName name = .ok ()) ∧ found = config := by
  unfold validate
  by_cases plain : config.namePrefix.toList.all isPrefixChar = true
  · simp only [plain, Bool.not_true, Bool.false_eq_true, if_false, bind_eq_ok, true_and,
      ← forM_eq_ok, pure, Except.pure, Except.ok.injEq]
    constructor
    · rintro ⟨⟨⟩, scales, ⟨⟩, breakpoints, ⟨⟩, utilities, rfl⟩
      exact ⟨scales, breakpoints, utilities, rfl⟩
    · rintro ⟨scales, breakpoints, utilities, rfl⟩
      exact ⟨⟨⟩, scales, ⟨⟩, breakpoints, ⟨⟩, utilities, rfl⟩
  · simp [plain, bind_eq_ok, throw, throwThe, MonadExceptOf.throw]

/-- A name of a scale, token or breakpoint that a configuration may have. -/
structure IsName (name : String) : Prop where
  shown : name ≠ ""
  unblank : ∀ c ∈ name.toList, Text.isBlank c = false
  undollared : '$' ∉ name.toList

theorem checkName_eq_ok {kind : NameKind} {name : String} :
    checkName kind name = .ok () ↔ IsName name := by
  unfold checkName
  constructor
  · intro checked
    split at checked
    · cases checked
    · next allowed =>
      simp only [Bool.or_eq_true, not_or, Text.hasBlank, List.any_eq_true, not_exists, not_and,
        String.isEmpty_iff, List.contains_iff_mem, Bool.not_eq_true] at allowed
      exact ⟨allowed.1.1, allowed.1.2, allowed.2⟩
  · rintro ⟨shown, unblank, undollared⟩
    have plain : Text.hasBlank name = false := by
      simpa [Text.hasBlank] using unblank
    simp [shown, plain, undollared]

theorem checkScales_eq_ok {scales : List (String × NameMap String)} :
    checkScales scales = .ok () ↔
      ∀ entry ∈ scales, IsName entry.1 ∧ ∀ token ∈ entry.2.names, IsName token := by
  induction scales with
  | nil => simp [checkScales]
  | cons entry rest ih =>
    simp only [checkScales, bind_eq_ok, ih, List.forall_mem_cons]
    constructor
    · rintro ⟨⟨⟩, scale, ⟨⟩, tokens, others⟩
      exact ⟨⟨checkName_eq_ok.mp scale, fun token member =>
        checkName_eq_ok.mp (forM_eq_ok.mp tokens token member)⟩, others⟩
    · rintro ⟨⟨scale, tokens⟩, others⟩
      exact ⟨⟨⟩, checkName_eq_ok.mpr scale, ⟨⟩, forM_eq_ok.mpr fun token member =>
        checkName_eq_ok.mpr (tokens token member), others⟩

/-- A breakpoint that a configuration may have. -/
structure IsBreakpoint (entry : String × String) : Prop where
  name : IsName entry.1
  unreserved : entry.1 ≠ "initial"
  shown : Text.allBlank entry.2 = false

theorem checkBreakpoints_cons {earlier : List String} {name query : String} {rest : Breakpoints} :
    checkBreakpoints earlier ((name, query) :: rest) = .ok () ↔
      IsBreakpoint (name, query) ∧ name ∉ earlier ∧
        checkBreakpoints (name :: earlier) rest = .ok () := by
  have guarded {refused : Prop} [Decidable refused] {fault : ConfigFault}
      {next : Except ConfigFault Unit} :
      (if refused then throw fault >>= fun _ : PUnit => next else next) = .ok () ↔
        ¬ refused ∧ next = .ok () := by
    by_cases held : refused
    · simp [held, bind_eq_ok, throw, throwThe, MonadExceptOf.throw]
    · simp [held]
  simp only [checkBreakpoints]
  rw [bind_eq_ok]
  simp only [guarded]
  constructor
  · rintro ⟨⟨⟩, named, unreserved, shown, fresh, others⟩
    exact ⟨⟨checkName_eq_ok.mp named, unreserved, by simpa using shown⟩,
      by simpa using fresh, others⟩
  · rintro ⟨⟨named, unreserved, shown⟩, fresh, others⟩
    exact ⟨⟨⟩, checkName_eq_ok.mpr named, unreserved, by simpa using shown,
      by simpa using fresh, others⟩

theorem checkBreakpoints_eq_ok {earlier : List String} {breakpoints : Breakpoints} :
    checkBreakpoints earlier breakpoints = .ok () ↔
      (∀ entry ∈ breakpoints, IsBreakpoint entry ∧ entry.1 ∉ earlier) ∧
        breakpoints.names.Nodup := by
  induction breakpoints generalizing earlier with
  | nil => simp [checkBreakpoints, Breakpoints.names]
  | cons entry rest ih =>
    obtain ⟨name, query⟩ := entry
    rw [checkBreakpoints_cons, ih, List.forall_mem_cons, Breakpoints.names, Breakpoints.names,
      List.map_cons, List.nodup_cons]
    simp only [List.mem_cons, not_or, List.mem_map, not_exists, not_and]
    constructor
    · rintro ⟨own, fresh, others, distinct⟩
      exact ⟨⟨⟨own, fresh⟩,
        fun entry member => ⟨(others entry member).1, (others entry member).2.2⟩⟩,
        fun entry member => (others entry member).2.1, distinct⟩
    · rintro ⟨⟨⟨own, fresh⟩, others⟩, once, distinct⟩
      exact ⟨own, fresh, fun entry member =>
        ⟨(others entry member).1, once entry member, (others entry member).2⟩, distinct⟩

/-- An at-rule key names no utility. -/
theorem get?_utilities_of_validate {config : Config} (valid : config.validate = .ok config)
    {key : String} (marked : Text.hasPrefix "@" key = true) : config.utilities.get? key = none := by
  cases found : config.utilities.get? key with
  | none => rfl
  | some utility =>
    obtain ⟨-, -, -, checked, -⟩ := validate_eq_ok.mp valid
    have allowed := checked key (List.mem_map.mpr ⟨_, NameMap.mem_of_get? found, rfl⟩)
    obtain ⟨rest, starts⟩ := AtRule.marked_of_hasPrefix marked
    simp [checkUtilityName, Text.startsWithAny, starts, reservedStarts] at allowed

def Templates (config : Config) : Prop :=
  ∀ name utility, config.utilities.get? name = some utility → utility.IsTemplate

theorem utilities_addMedia {media : List (String × Toml)} {config after : Config}
    (added : config.addMedia media = .ok after) : after.utilities = config.utilities := by
  induction media generalizing config with
  | nil => exact Except.ok.inj added ▸ rfl
  | cons entry rest ih =>
    obtain ⟨name, value⟩ := entry
    cases value with
    | text query =>
      have kept := ih added
      exact kept
    | _ => cases added

theorem templates_addTemplates {utilities : List (String × Toml)} {config after : Config}
    (templates : ∀ entry ∈ config.utilities.entries, entry.2.IsTemplate)
    (added : config.addTemplates utilities = .ok after) :
    ∀ entry ∈ after.utilities.entries, entry.2.IsTemplate := by
  induction utilities generalizing config with
  | nil => exact Except.ok.inj added ▸ templates
  | cons entry rest ih =>
    obtain ⟨name, value⟩ := entry
    cases value with
    | table entries =>
      obtain ⟨body, -, others⟩ := bind_eq_ok.mp added
      apply ih _ others
      intro entry member
      rcases NameMap.mem_insertEntry member with rfl | old
      · trivial
      · exact templates entry old
    | _ => cases added

theorem utilities_addScales (scales : List (String × List (String × String))) (config : Config) :
    (scales.foldl (fun config (scale, tokens) => config.addScale scale tokens) config).utilities =
      config.utilities := by
  induction scales generalizing config with
  | nil => rfl
  | cons scale rest ih => exact ih (config.addScale scale.1 scale.2)

theorem utilities_bindAll (bindings : List (String × String)) (config : Config) :
    (bindings.foldl (fun config (key, scale) => config.bind key scale) config).utilities =
      config.utilities := by
  induction bindings generalizing config with
  | nil => rfl
  | cons binding rest ih => exact ih (config.bind binding.1 binding.2)

/-- A configuration of a document is valid, and its utilities are templates. -/
theorem templates_ofText {path text : String} {config : Config}
    (read : ofText path text = .ok config) :
    config.validate = .ok config ∧ config.Templates := by
  unfold ofText at read
  split at read
  · cases read
  · next document _ =>
    cases made : ofDocument document with
    | error fault => simp [made, Except.mapError] at read
    | ok found =>
      obtain rfl : found = config := by simpa [made, Except.mapError] using read
      unfold ofDocument at made
      obtain ⟨withMedia, media, made⟩ := bind_eq_ok.mp made
      obtain ⟨whole, utilities, checked⟩ := bind_eq_ok.mp made
      obtain rfl := (validate_eq_ok.mp checked).2.2.2.2
      refine ⟨checked, ?_⟩
      have none_yet : ∀ entry ∈ initial.utilities.entries, entry.2.IsTemplate :=
        List.forall_mem_nil _
      intro name utility known
      refine templates_addTemplates ?_ utilities _ (NameMap.mem_of_get? known)
      rw [utilities_bindAll, utilities_addMedia media, utilities_addScales]
      exact none_yet

end Config

end AtomicCss
