import AtomicCss.Proofs.Engine.Operations

/-!
Operations that fail.

Everything that an operation can fail at comes before its first change: parsing and composing
styles, checking their layers, resolving a selection, flattening, deriving a theme and reading
props. So a run may leave the operations out that fail: the engine and the answers of all others
stay the same.
-/

namespace AtomicCss.Engine

variable {settle : Settle Engine} {engine after : Engine} {operation : Operation}
  {error : StyleError}

section Failed

theorem css_failed {node : StyleNode} (failed : engine.css node = (.error error, after)) :
    after = engine := by
  rcases engine.css_cases node with ⟨other, refused⟩ | ⟨definition, compiled⟩
  · exact (Prod.mk.inj (failed.symm.trans refused)).2
  · cases failed.symm.trans compiled

theorem cssComposed_failed {parts : List CompiledStyle} {node : StyleNode}
    (failed : engine.cssComposed parts node = (.error error, after)) : after = engine := by
  unfold cssComposed at failed
  split at failed
  · exact (Prod.mk.inj failed).2.symm
  · next own _ =>
    rcases engine.compile_cases (.compose (parts.map (·.definition) ++ [own])) with
      ⟨other, refused⟩ | compiled
    · exact (Prod.mk.inj (failed.symm.trans refused)).2
    · cases failed.symm.trans compiled

theorem styled_failed {element : String} {node : StyleNode}
    (failed : engine.styled element node = (.error error, after)) : after = engine := by
  rw [styled_eq] at failed
  exact css_failed (told_failed failed)

theorem extend_failed {component : Component} {node : StyleNode}
    (failed : engine.extend component node = (.error error, after)) : after = engine := by
  rw [extend_eq] at failed
  exact cssComposed_failed (told_failed failed)

theorem className_failed {style : CompiledStyle} {selection : VariantSelection}
    {override : Option StyleNode}
    (failed : engine.className settle style selection override = (.error error, after)) :
    after = engine := by
  have asked := engine.asked_className settle style selection override
  rw [failed] at asked
  cases asked
  rfl

theorem renderWith_failed {component : Component} {props : List (String × Json)}
    (failed : engine.renderWith settle component props = (.error error, after)) :
    after = engine := by
  cases read : component.read props with
  | error other =>
    simp only [renderWith, read] at failed
    exact (Prod.mk.inj failed).2.symm
  | ok reading =>
    rw [renderWith_eq settle engine read] at failed
    exact className_failed (told_failed failed)

theorem keyframes_failed {node : StyleNode}
    (failed : engine.keyframes settle node = (.error error, after)) : after = engine := by
  unfold keyframes at failed
  split at failed
  · exact (Prod.mk.inj failed).2.symm
  · cases failed

theorem createTheme_failed {name : Option String} {overrides : ScaleMap}
    (failed : engine.createTheme settle name overrides = (.error error, after)) :
    after = engine := by
  unfold createTheme at failed
  split at failed
  · exact (Prod.mk.inj failed).2.symm
  · split at failed <;> cases failed

/-- Whatever an operation fails at, it fails before it changes anything. -/
theorem perform_failed (failed : engine.perform settle operation = (.error error, after)) :
    after = engine := by
  cases operation with
  | css node => exact css_failed (told_failed failed)
  | cssComposed parts node => exact cssComposed_failed (told_failed failed)
  | styled element node => exact styled_failed (told_failed failed)
  | extend component node => exact extend_failed (told_failed failed)
  | className style selection override => exact className_failed (told_failed failed)
  | render component props => exact renderWith_failed (told_failed failed)
  | globalCss node => exact (Prod.mk.inj failed).2.symm
  | apply style => cases failed
  | keyframes node => exact keyframes_failed (told_failed failed)
  | createTheme name overrides => exact createTheme_failed (told_failed failed)

end Failed

/-- The operations of a transcript that did not fail. -/
def succeeded (entries : List (Operation × Except StyleError Answer)) :
    List (Operation × Except StyleError Answer) :=
  entries.filter (·.2.isOk)

/-- Operations that fail may be left out of a run: the others answer the same and lead to the same
engine. -/
theorem performAll_succeeded (settle : Settle Engine) (engine : Engine)
    (operations : List Operation) :
    engine.performAll settle ((succeeded (engine.transcript settle operations)).map (·.1)) =
        engine.performAll settle operations ∧
      engine.transcript settle ((succeeded (engine.transcript settle operations)).map (·.1)) =
        succeeded (engine.transcript settle operations) := by
  induction operations generalizing engine with
  | nil => exact ⟨rfl, rfl⟩
  | cons operation rest ih =>
    obtain ⟨same_engine, same_answers⟩ := ih (engine.perform settle operation).2
    have split : engine.transcript settle (operation :: rest) =
        (operation, (engine.perform settle operation).1) ::
          (engine.perform settle operation).2.transcript settle rest := rfl
    cases answer : (engine.perform settle operation).1 with
    | error error =>
      have unchanged : (engine.perform settle operation).2 = engine :=
        perform_failed (Prod.ext answer rfl)
      have dropped : succeeded (engine.transcript settle (operation :: rest)) =
          succeeded (engine.transcript settle rest) := by
        rw [split, unchanged, answer]
        rfl
      rw [unchanged] at same_engine same_answers
      rw [dropped]
      refine ⟨?_, same_answers⟩
      rw [same_engine, performAll, performAll, List.foldl_cons, unchanged]
    | ok value =>
      have kept : succeeded (engine.transcript settle (operation :: rest)) =
          (operation, .ok value) ::
            succeeded ((engine.perform settle operation).2.transcript settle rest) := by
        rw [split, answer]
        rfl
      rw [kept, List.map_cons]
      refine ⟨same_engine, ?_⟩
      rw [transcript, same_answers, answer]

/-- An operation that fails leaves the engine as it was: the sheet and what is queued, the classes
given out and their number, and what is remembered. So calls, requests and runs are what the
operations that did not fail make of them. -/
theorem failed_leaves_engine (settle : Settle Engine) (engine : Engine) :
    (∀ operation error after, engine.perform settle operation = (.error error, after) →
        after = engine) ∧
      (∀ operations, let kept := succeeded (engine.transcript settle operations)
        engine.performAll settle (kept.map (·.1)) = engine.performAll settle operations ∧
          engine.transcript settle (kept.map (·.1)) = kept) ∧
      (∀ request, engine.serve settle request =
        engine.performAll settle
          ((succeeded (engine.transcript settle (engine.operations request))).map (·.1))) ∧
      ∀ requests, engine.run requests =
        engine.performAll drain ((succeeded (engine.transcript drain (engine.calls requests))).map
          (·.1)) := by
  refine ⟨fun _ _ _ => perform_failed, fun operations => ?_, fun request => ?_, fun requests => ?_⟩
  · exact performAll_succeeded settle engine operations
  · rw [(performAll_succeeded settle engine _).1, serve_eq_performAll]
  · rw [(performAll_succeeded drain engine _).1, run_eq_performAll]

/-- A value that a style does not have is refused after its other groups were laid. -/
theorem unknown_value_leaves_engine :
    let config : Config := ⟨"x", .empty, [], .empty, .empty⟩
    let node : StyleNode := [("color", .text "red"), ("variants", .node [
      ("tone", .node [("dark", .node [("margin", .text "0")])]),
      ("size", .node [("lg", .node [("padding", .text "8px")])])])]
    let style : CompiledStyle := ⟨0, [("color", .text "red")],
      [("tone", [("dark", [("margin", .text "0")])]),
        ("size", [("lg", [("padding", .text "8px")])])],
      [], []⟩
    let asks : Operation := .className style [("tone", .single "dark"), ("size", .single "xl")]
      (some [("color", .text "blue")])
    let engine :=
      ((start drain config true).withScript []).run [.compile node, .classOfStyle 0 [] none]
    engine.style? 0 = some style ∧ engine.index.counter = 1 ∧
      ∃ error, engine.perform drain asks = (.error error, engine) := by
  intro config node style asks engine
  have known : engine.style? 0 = some style := by rfl
  have given : engine.index.counter = 1 := by decide +kernel
  have refused : (engine.perform drain asks).1.isOk = false := by decide +kernel
  cases answer : (engine.perform drain asks).1 with
  | ok value => simp [answer, Except.isOk, Except.toBool] at refused
  | error error =>
    have unchanged := (failed_leaves_engine drain engine).1 asks error _ (Prod.ext answer rfl)
    exact ⟨known, given, error, Prod.ext answer unchanged⟩

end AtomicCss.Engine
