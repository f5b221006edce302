import AtomicCss.Proofs.Config.Validity
import AtomicCss.Proofs.Engine.ClassName
import AtomicCss.Proofs.Variant.Layers

/-!
What compiling a style checks.

The layers of a style are checked one by one when it compiles, and a class is made of what they
merge into. With templates only, merging and breakpoint keys keep what can be flattened. So asking a
compiled style for a class fails only because of what is asked, and the class of the bare style can
always be had.
-/

namespace AtomicCss

theorem StyleDefinition.hasPrefix_of_breakpointRank? {breakpoints : List String} {key : String}
    {rank : Nat} (ranked : breakpointRank? breakpoints key = some rank) :
    Text.hasPrefix "@" key = true := by
  rcases breakpointRank?_cases ranked with ⟨rfl, -⟩ | ⟨name, -, stripped, -, -⟩
  · decide
  · obtain ⟨chars, found, -⟩ := Option.map_eq_some_iff.mp stripped
    rw [Text.hasPrefix, Text.Chars.stripPrefix?_eq_some found]
    exact List.isPrefixOf_iff_prefix.mpr (List.prefix_append _ _)

/-- What can be flattened stays so when layers are merged that can be, as they are or under a
breakpoint that names no utility. -/
theorem closed_flatten {vocabulary : Vocabulary} (templates : vocabulary.Templates)
    (free : ∀ key, Text.hasPrefix "@" key = true → vocabulary.utilities.get? key = none)
    {definition : StyleDefinition}
    (layers : ∀ layer ∈ definition.layers, ∃ rules, flatten vocabulary .scoped layer.2 = .ok rules)
    (breakpoints : List String) :
    definition.Closed breakpoints fun node => ∃ rules,
      flatten vocabulary .scoped node = .ok rules where
  layer flat isLayer := by
    obtain ⟨layer, member, rfl⟩ := isLayer
    have own := layers layer member
    rw [flatten_scoped_iff] at flat own ⊢
    exact Flatten.accepts_merge templates (Flatten.steady_expansion _) _ _ flat own
  branch flat isLayer ranked := by
    obtain ⟨layer, member, rfl⟩ := isLayer
    have marked := StyleDefinition.hasPrefix_of_breakpointRank? ranked
    have own := layers layer member
    rw [flatten_scoped_iff] at flat own ⊢
    have under := Flatten.acceptsEntry_atRule marked (free _ marked) own
    apply Flatten.accepts_merge templates (Flatten.steady_expansion _) _ _ flat
    rw [Flatten.accepts_iff (Flatten.steady_expansion _), List.forall_mem_singleton]
    exact under

/-- What layers are merged into can be flattened if each of them can be. -/
theorem flatten_of_layers {vocabulary : Vocabulary} (templates : vocabulary.Templates)
    (free : ∀ key, Text.hasPrefix "@" key = true → vocabulary.utilities.get? key = none)
    {definition : StyleDefinition} {selection : VariantSelection} {breakpoints : List String}
    {node : StyleNode}
    (layers : ∀ layer ∈ definition.layers, ∃ rules, flatten vocabulary .scoped layer.2 = .ok rules)
    (resolved : definition.resolve selection breakpoints none = .ok node) :
    ∃ rules, flatten vocabulary .scoped node = .ok rules := by
  obtain ⟨layer, member, base⟩ := definition.isLayer_parts.1
  exact (closed_flatten templates free layers breakpoints).resolve
    (base ▸ layers layer member) resolved

namespace Engine

variable {engine : Engine} {settle : Settle Engine} {definition : StyleDefinition}
  {style : CompiledStyle} {selection : VariantSelection}

theorem check_eq_ok :
    engine.check definition = .ok () ↔
      definition.validateDefaults = .ok () ∧
        ∀ layer ∈ definition.layers, ∃ rules,
          flatten engine.vocabulary .scoped layer.2 = .ok rules := by
  have checks (layer : String × StyleNode) :
      (flatten engine.vocabulary .scoped layer.2 >>= fun _ => pure ()) = Except.ok () ↔
        ∃ rules, flatten engine.vocabulary .scoped layer.2 = .ok rules := by
    simp [bind_eq_ok, pure, Except.pure]
  unfold check
  rw [bind_eq_ok]
  constructor
  · rintro ⟨⟨⟩, defaults, layers⟩
    exact ⟨defaults, fun layer member => (checks layer).mp (forM_eq_ok.mp layers layer member)⟩
  · rintro ⟨defaults, layers⟩
    exact ⟨⟨⟩, defaults,
      forM_eq_ok.mpr fun layer member => (checks layer).mpr (layers layer member)⟩

theorem css_eq_ok {node : StyleNode} {compiled : Engine}
    (compiles : engine.css node = (.ok style, compiled)) :
    StyleDefinition.parse node = .ok style.definition ∧ engine.check style.definition = .ok () ∧
      compiled = { engine with styles := engine.styles ++ [style.definition] } := by
  unfold css at compiles
  split at compiles
  · cases compiles
  · next definition parsed =>
    unfold compile at compiles
    split at compiles
    · cases compiles
    · next checked =>
      cases compiles
      exact ⟨parsed, checked, rfl⟩

/-- Asking for a class fails only where it is not remembered and there are no declarations. -/
theorem declarations_of_failed {override : Option StyleNode} {error : StyleError} {after : Engine}
    (failed : engine.className settle style selection override = (.error error, after)) :
    engine.declarations style.definition (style.definition.normalize selection) override =
      .error error := by
  have asked := engine.asked_className settle style selection override
  rw [failed] at asked
  cases asked with
  | refused found => exact found

theorem flatten_of_checked (templates : engine.vocabulary.Templates)
    (free : ∀ key, Text.hasPrefix "@" key = true → engine.vocabulary.utilities.get? key = none)
    (checked : engine.check definition = .ok ()) {breakpoints : List String} {node : StyleNode}
    (resolved : definition.resolve selection breakpoints none = .ok node) :
    ∃ rules, flatten engine.vocabulary .scoped node = .ok rules :=
  flatten_of_layers templates free (check_eq_ok.mp checked).2 resolved

theorem resolve_of_failed (templates : engine.vocabulary.Templates)
    (free : ∀ key, Text.hasPrefix "@" key = true → engine.vocabulary.utilities.get? key = none)
    (checked : engine.check style.definition = .ok ()) {error : StyleError} {after : Engine}
    (failed : engine.className settle style selection none = (.error error, after)) :
    style.definition.resolve
      (style.definition.normalize selection) engine.config.breakpoints.names none =
      .error error := by
  rcases bind_eq_error.mp (declarations_of_failed failed) with own | ⟨node, resolved, rest⟩
  · exact own
  · obtain ⟨rules, flat⟩ := flatten_of_checked templates free checked resolved
    simp [flat, bind, Except.bind, pure, Except.pure] at rest

/-- Compiling a style checks all that can go wrong with it: however the engine went on, the class of
the bare style can be had, any other class is refused only for a value or a breakpoint that is asked
for, and what the layers merge into can be flattened. Documents declare configurations of this
kind. -/
theorem className_of_compiled {config : Config} {replicated : Bool} {script : List (List Request)}
    {requests more : List Request} {engine compiled later : Engine} {node : StyleNode}
    {style : CompiledStyle} (valid : config.validate = .ok config) (templates : config.Templates)
    (once : node.keysOnce = true)
    (reached : engine = ((start drain config replicated).withScript script).run requests)
    (compiles : engine.css node = (.ok style, compiled)) (continued : later = compiled.run more) :
    (∃ text after, later.className drain style [] none = (.ok text, after)) ∧
      (∀ selection error after,
        later.className drain style selection none = (.error error, after) →
          let asked := style.definition.normalize selection
          style.definition.resolve asked config.breakpoints.names none = .error error ∧
            style.definition.Refused config.breakpoints.names asked error) ∧
      (∀ selection merged,
        style.definition.resolve
          (style.definition.normalize selection) config.breakpoints.names none =
            .ok merged →
          ∃ rules, flatten later.vocabulary .scoped merged = .ok rules) ∧
      ∀ path text other, Config.ofText path text = .ok other →
        other.validate = .ok other ∧ other.Templates := by
  obtain ⟨parsed, checked, rfl⟩ := css_eq_ok compiles
  obtain ⟨started, sorted, -⟩ := reached ▸
    advances_run config replicated script requests (sorted_bare config replicated)
  obtain ⟨grows, -⟩ :=
    continued ▸ (advances_composes.trans (advances_compiled engine style.definition)
    ((advances_holdsAcross advances_drain).run _ more)) sorted
  have same_config : later.config = config := grows.config.trans started.config
  have same_vocabulary : later.vocabulary = engine.vocabulary := by
    simp only [vocabulary, grows.config, grows.theme]
  have checked_later : later.check style.definition = .ok () := by
    rw [check, same_vocabulary]
    exact checked
  have templates_later : later.vocabulary.Templates := by
    intro name utility known
    exact templates name utility (same_config ▸ known)
  have free : ∀ key, Text.hasPrefix "@" key = true →
      later.vocabulary.utilities.get? key = none := by
    intro key marked
    change later.config.utilities.get? key = none
    rw [same_config]
    exact Config.get?_utilities_of_validate valid marked
  have refused {selection : VariantSelection} {error : StyleError} {after : Engine}
      (failed : later.className drain style selection none = (.error error, after)) :=
    resolve_of_failed templates_later free checked_later failed
  rw [same_config] at refused
  have distinct := StyleDefinition.nodup_groups_of_parse once parsed
  have defaults := (check_eq_ok.mp checked).1
  refine ⟨?_, ?_, ?_, ?_⟩
  · cases answer : later.className drain style [] none with
    | mk result after =>
      cases result with
      | ok text => exact ⟨text, after, rfl⟩
      | error error =>
        exact absurd (StyleDefinition.refused_of_resolve distinct defaults (refused answer))
          StyleDefinition.not_refused_nil
  · intro selection error after failed
    exact ⟨refused failed, StyleDefinition.refused_of_resolve distinct defaults (refused failed)⟩
  · intro selection merged resolved
    exact flatten_of_checked templates_later free checked_later resolved
  · intro path text other read
    exact Config.templates_ofText read

/-- A utility under a breakpoint of a variant: the bare style has a class, and the variant merges
into an object that can be flattened. -/
theorem className_of_utility :
    let config : Config := ⟨"", .empty, [("bp1", "(min-width: 640px)")], .empty,
      .ofList [("box", .template [("width", .text "--value()")])]⟩
    let node : StyleNode := [("box", .text "1px"), ("variants", .node [("size", .node [
      ("lg", .node [("@bp1", .node [("box", .text "2px")])])])])]
    let selection : VariantSelection := [("size", .responsive [("@bp1", "lg")])]
    let engine := ((start drain config false).withScript []).run []
    config.validate = .ok config ∧ config.Templates ∧ node.keysOnce = true ∧
      ∃ style compiled, engine.css node = (.ok style, compiled) ∧
        (∃ text after,
          (compiled.run [.keyframes []]).className drain style [] none = (.ok text, after)) ∧
        ∃ merged rules,
          style.definition.resolve
            (style.definition.normalize selection) config.breakpoints.names none =
              .ok merged ∧
            flatten (compiled.run [.keyframes []]).vocabulary .scoped merged = .ok rules := by
  intro config node selection engine
  have valid : config.validate = .ok config :=
    Config.validate_eq_ok.mpr ⟨by decide, by decide, by decide +kernel, by decide, rfl⟩
  have templates : config.Templates := by
    intro name utility known
    have listed := NameMap.mem_of_get? known
    obtain ⟨-, rfl⟩ := Prod.ext_iff.mp (List.mem_singleton.mp listed)
    trivial
  have once : node.keysOnce = true := by decide
  have evaluated : (engine.css node).1.toOption.any (fun style =>
      (style.definition.resolve (style.definition.normalize selection) config.breakpoints.names
        none).toOption.isSome) = true := by
    decide +kernel
  cases compiles : engine.css node with
  | mk result compiled =>
    cases result with
    | error error => simp [compiles, Except.toOption] at evaluated
    | ok style =>
      cases resolved : style.definition.resolve (style.definition.normalize selection)
          config.breakpoints.names none with
      | error error => simp [compiles, resolved, Except.toOption] at evaluated
      | ok merged =>
        obtain ⟨bare_class, -, flat, -⟩ :=
          className_of_compiled valid templates once rfl compiles rfl
        obtain ⟨rules, flattened⟩ := flat selection merged resolved
        exact ⟨valid, templates, once, style, compiled, rfl, bare_class, merged, rules, resolved,
          flattened⟩

end Engine

end AtomicCss
