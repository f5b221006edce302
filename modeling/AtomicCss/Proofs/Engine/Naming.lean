import AtomicCss.Proofs.Config.Validity
import AtomicCss.Proofs.Engine.Emission
import AtomicCss.Proofs.Text.Escaping

/-!
The generated names that an engine writes.

The rules of classes and of derived themes write their names escaped. The rule of the default theme
and keyframes write them as they stand, so that they begin as a name may only if the prefix does.
-/

namespace AtomicCss.Engine

/-- The rule of each class is that of its declaration. -/
def Labelled (engine : Engine) : Prop :=
  ∀ rule ∈ engine.index.rules, rule.css = rule.declaration.ruleText rule.className

def KeepsLabels (first second : Engine) : Prop := first.Labelled → second.Labelled

theorem keepsLabels_composes : Composes KeepsLabels where
  refl _ := id
  trans earlier later := later ∘ earlier

theorem keepsLabels_of_same {first second : Engine} (index : second.index = first.index) :
    KeepsLabels first second := by
  intro labelled
  rw [Labelled, index]
  exact labelled

theorem keepsLabels_emit (engine : Engine) (declaration : AtomicDeclaration) :
    KeepsLabels engine (engine.emit declaration).2 := by
  have emits := engine.emits_emit declaration
  generalize engine.emit declaration = answer at emits ⊢
  cases emits with
  | known _ => exact id
  | next slot _ _ =>
    intro labelled rule member
    rcases List.mem_cons.mp member with rfl | old
    · rfl
    · exact labelled rule old

theorem keepsLabels_emitAll (declarations : List AtomicDeclaration) (engine : Engine)
    (classes : List String) : KeepsLabels engine (engine.emitAll declarations classes).2 := by
  induction declarations generalizing engine classes with
  | nil => exact id
  | cons declaration rest ih =>
    exact keepsLabels_composes.trans (keepsLabels_emit engine declaration) (ih _ _)

theorem keepsLabels_holdsAcross {settle : Settle Engine}
    (settles : ∀ engine, KeepsLabels engine (settle engine)) : HoldsAcross settle KeepsLabels where
  toComposes := keepsLabels_composes
  compiled _ _ := keepsLabels_of_same rfl
  text engine group css _ := by
    have inserted : KeepsLabels engine
        { engine with
          sheet := (engine.sheet.take ⟨group, 0, Hash.content (textParts group css), css⟩).2 } :=
      keepsLabels_of_same rfl
    exact keepsLabels_composes.trans inserted (settles _)
  asked engine style selection override _ := by
    have asked := engine.asked_className settle style selection override
    have settled (declarations) : KeepsLabels engine (engine.settled settle declarations) :=
      keepsLabels_composes.trans (keepsLabels_emitAll declarations engine []) (settles _)
    generalize engine.className settle style selection override = answer at asked ⊢
    cases asked with
    | remembered _ => exact id
    | refused _ => exact id
    | overridden _ => exact settled _
    | noted _ _ => exact settled _

theorem keepsLabels_drain (engine : Engine) : KeepsLabels engine engine.drain :=
  related_drain (keepsLabels_holdsAcross fun _ => id)
    (HoldsAcrossReplica.delivery fun _ _ _ => keepsLabels_of_same rfl) engine

theorem labelled_run (config : Config) (replicated : Bool) (script : List (List Request))
    (requests : List Request) :
    (((start drain config replicated).withScript script).run requests).Labelled := by
  apply (keepsLabels_holdsAcross keepsLabels_drain).reached (fun _ _ _ => keepsLabels_of_same rfl)
  exact List.forall_mem_nil _

theorem derive_none {theme derived : Theme} {overrides : ScaleMap} {namePrefix : String}
    (made : theme.derive none overrides namePrefix = .ok derived) :
    derived.selector = "." ++ Name.escape derived.className := by
  obtain ⟨scales, -, rest⟩ := bind_eq_ok.mp made
  obtain rfl := Except.ok.inj rest
  rfl

/-- The rules of classes in the sheet are those of the index. -/
theorem exists_rule_of_atomicRules {config : Config} {replicated : Bool} {engine : Engine}
    (continues : Continues (bare config replicated) engine) {held : SheetRule}
    (member : held ∈ engine.sheet.atomicRules) :
    ∃ rule ∈ engine.index.rules, held = rule.inSheet config.breakpoints := by
  obtain ⟨-, -, ⟨fresh, kept, rules, within, order⟩, -⟩ := continues.reached
  have none_yet : (bare config replicated).sheet.atomicRules = [] := by
    cases replicated <;> rfl
  have known := order.mem member
  rw [none_yet, List.nil_append] at known
  obtain ⟨rule, inside, same⟩ := List.mem_map.mp known
  refine ⟨rule, ?_, same.symm⟩
  rw [rules]
  exact List.mem_append_left _ (List.mem_reverse.mp (within.subset inside))

/-- Whatever was called before, the rules of classes are written for the escaped names of their
classes, and so is the rule of a derived theme without a name of its own; these spell the names. The
rule of the default theme and keyframes are written for the names as they stand, which read back,
but spell the names just if the prefix begins as a name may. -/
theorem names_written {config : Config} {replicated : Bool} {script : List (List Request)}
    {requests : List Request} {engine : Engine} (valid : config.validate = .ok config)
    (reached : engine = ((start drain config replicated).withScript script).run requests) :
    (∀ rule ∈ engine.index.rules,
      rule.css = AtRule.wrap rule.declaration.atRules
          (AtRule.block
            (Text.replaceChar Selector.owner ("." ++ Name.escape rule.className)
              rule.declaration.selector)
            rule.declaration.body) ∧
        Name.Spells (Name.escape rule.className) rule.className) ∧
      (∀ held ∈ engine.sheet.atomicRules, ∃ rule ∈ engine.index.rules, held.css = rule.css) ∧
      (∀ overrides derived after,
        engine.createTheme drain none overrides = (.ok derived, after) →
          (∃ body, themeRule config derived =
              AtRule.block ("." ++ Name.escape derived.className) body) ∧
            Name.Spells (Name.escape derived.className) derived.className) ∧
      ((∃ body,
          themeRule config engine.theme =
            AtRule.block (":root,." ++ engine.theme.className) body) ∧
        Name.unescape engine.theme.className = engine.theme.className ∧
        (Name.Spells engine.theme.className engine.theme.className ↔
          Name.Chars.startsName config.namePrefix.toList = true)) ∧
      ∀ node keyframes after, engine.keyframes drain node = (.ok keyframes, after) →
        (∃ body, keyframes.css = AtRule.block ("@keyframes " ++ keyframes.name) body) ∧
          Name.unescape keyframes.name = keyframes.name ∧
          (Name.Spells keyframes.name keyframes.name ↔
            Name.Chars.startsName config.namePrefix.toList = true) := by
  have continues := reached ▸ continues_run config replicated script requests
  have labelled := reached ▸ labelled_run config replicated script requests
  have plain := plain_of_validate valid
  have grows := continues.reached.1
  have same_theme : engine.theme = config.defaultTheme := grows.theme
  have same_config : engine.config = config := grows.config
  refine ⟨fun rule member => ⟨labelled rule member, Name.spells_escape _⟩, ?_, ?_, ?_, ?_⟩
  · intro held member
    obtain ⟨rule, inside, rfl⟩ := exists_rule_of_atomicRules continues member
    exact ⟨rule, inside, rfl⟩
  · intro overrides derived after made
    refine ⟨?_, Name.spells_escape _⟩
    unfold createTheme at made
    split at made
    · cases (Prod.mk.inj made).1
    · next theme derives =>
      obtain rfl : theme = derived := by split at made <;> cases made <;> rfl
      exact ⟨_, congrArg (AtRule.block · _) (derive_none derives)⟩
  · rw [same_theme]
    exact ⟨⟨_, rfl⟩, Name.spells_prefixed plain (by decide) (fun _ => rfl) _⟩
  · intro node keyframes after answered
    unfold Engine.keyframes at answered
    split at answered
    · cases (Prod.mk.inj answered).1
    · next rules _ =>
      cases answered
      rw [same_config]
      exact ⟨⟨_, rfl⟩, Name.spells_prefixed plain (by decide) (fun _ => rfl) _⟩

/-- Under a prefix that begins with a digit the default theme and keyframes are written with names
that begin with that digit. -/
theorem names_written_of_digit :
    let config : Config := ⟨"1a", .ofList [("s", .ofList [("t", "1px")])], [], .empty, .empty⟩
    let frames : StyleNode := [("from", .node [("opacity", .text "0")])]
    let engine := ((start drain config false).withScript []).run []
    config.validate = .ok config ∧ engine.theme.className = "1a-t-35kcpfufmx2gv" ∧
      (∃ body, themeRule config engine.theme = AtRule.block ":root,.1a-t-35kcpfufmx2gv" body) ∧
      ¬ Name.Spells "1a-t-35kcpfufmx2gv" "1a-t-35kcpfufmx2gv" ∧
      ∃ keyframes after, engine.keyframes drain frames = (.ok keyframes, after) ∧
        keyframes.name = "1a-k-37qnglx8cpl1g" ∧
        (∃ body, keyframes.css = AtRule.block "@keyframes 1a-k-37qnglx8cpl1g" body) ∧
        ¬ Name.Spells "1a-k-37qnglx8cpl1g" "1a-k-37qnglx8cpl1g" := by
  intro config frames engine
  have valid : config.validate = .ok config :=
    Config.validate_eq_ok.mpr ⟨by decide, rfl, rfl, List.forall_mem_nil _, rfl⟩
  have digit : ¬ Name.Chars.startsName config.namePrefix.toList = true := by decide
  obtain ⟨-, -, -, ⟨theme_rule, -, theme⟩, frames_written⟩ :=
    names_written valid (rfl : engine = ((start drain config false).withScript []).run [])
  have named : engine.theme.className = "1a-t-35kcpfufmx2gv" := by decide +kernel
  have frames_named : (engine.keyframes drain frames).1.toOption.map (·.name) =
      some "1a-k-37qnglx8cpl1g" := by decide +kernel
  rw [named] at theme_rule theme
  refine ⟨valid, named, theme_rule, mt theme.mp digit, ?_⟩
  cases found : engine.keyframes drain frames with
  | mk made after =>
    cases made with
    | error error => simp [found, Except.toOption] at frames_named
    | ok keyframes =>
      have name : keyframes.name = "1a-k-37qnglx8cpl1g" := by
        simpa [found, Except.toOption] using frames_named
      obtain ⟨css, -, spells⟩ := frames_written frames keyframes after found
      rw [name] at css spells
      exact ⟨keyframes, after, rfl, name, css, mt spells.mp digit⟩

end AtomicCss.Engine
