import AtomicCss.Proofs.Engine.ClassState
import AtomicCss.Proofs.Engine.Groups

/-!
Calls of different kinds in any order.

Class rules, global texts and themes share a sheet, its seen hashes and its replica, but no kind of
operation reads what another one leaves. So runs with the same operations of each kind answer alike
and lead to the same rules, however the kinds are interleaved, as long as no two of the texts that a
run hashes collide. A replica that calls the engine makes its calls inside of others, where there is
no order between them; here it makes none.
-/

namespace AtomicCss.Engine

variable {engine : Engine} {operations : List Operation} {kind : OperationKind}

/-- The answers to the operations of a kind, in their order. -/
def answers (engine : Engine) (operations : List Operation) (kind : OperationKind) :
    List (Except StyleError Answer) :=
  ((engine.transcript drain operations).filter (·.1.kind = kind)).map (·.2)

/-- Operations that do not ask for classes answer at any time what the first engine answers. -/
theorem answers_other (quiet : engine.Quiet)
    (early : ∀ operation ∈ operations, ∀ text ∈ engine.texts operation, text.1.order < 3)
    (other : kind ≠ .classes) :
    engine.answers operations kind =
      (operations.filter (·.kind = kind)).map fun operation =>
        (engine.perform drain operation).1 := by
  -- The engines in between differ from the first one in neither configuration nor theme.
  have from_here (later : Engine) (still : later.Quiet) (config : later.config = engine.config)
      (theme : later.theme = engine.theme) : later.answers operations kind =
        (operations.filter (·.kind = kind)).map fun operation =>
          (engine.perform drain operation).1 := by
    induction operations generalizing later with
    | nil => rfl
    | cons operation rest ih =>
      obtain ⟨own, others⟩ := List.forall_mem_cons.mp early
      have own_later : ∀ text ∈ later.texts operation, text.1.order < 3 :=
        texts_of_same config theme operation ▸ own
      have inserts := inserts_perform still own_later
      have rest_answers := ih others _ (quiet_perform still operation) (inserts.config.trans config)
        (inserts.theme.trans theme)
      unfold answers at rest_answers ⊢
      by_cases same : operation.kind = kind
      · have answer := answer_of_same config theme (same ▸ other) drain drain id
        rw [Operation.renumber_id] at answer
        simp only [transcript, List.filter_cons, same, decide_true, if_true, List.map_cons, answer,
          rest_answers]
      · simp only [transcript, List.filter_cons, same, decide_false, Bool.false_eq_true, if_false,
          rest_answers]
  exact from_here engine quiet rfl rfl

theorem classState_start (config : Config) (replicated : Bool) :
    (start drain config replicated).classState = (bare config replicated).classState := by
  simp only [start]
  split
  · rfl
  · exact classState_insertText (quiet_bare config replicated) _ _

section Run

variable {config : Config} {replicated mirrored : Bool} {first second : List Request}

/-- The operations of a kind in a run. -/
def callsOf (config : Config) (replicated : Bool) (requests : List Request) (kind : OperationKind) :
    List Operation :=
  ((start drain config replicated).calls requests).filter (·.kind = kind)

/-- What a run answers to its operations of a kind. -/
def answersOf (config : Config) (replicated : Bool) (requests : List Request)
    (kind : OperationKind) :
    List (Except StyleError Answer) :=
  (start drain config replicated).answers ((start drain config replicated).calls requests) kind

theorem same_start (config : Config) (replicated mirrored : Bool) :
    (start drain config mirrored).config = (start drain config replicated).config ∧
      (start drain config mirrored).theme = (start drain config replicated).theme := by
  obtain ⟨-, left⟩ := inserts_start config replicated
  obtain ⟨-, right⟩ := inserts_start config mirrored
  exact ⟨right.config.trans left.config.symm, right.theme.trans left.theme.symm⟩

theorem answersOf_other (other : kind ≠ .classes)
    (same : callsOf config mirrored second kind = callsOf config replicated first kind) :
    answersOf config mirrored second kind = answersOf config replicated first kind := by
  have own (replicated : Bool) (requests : List Request) :=
    answers_other (inserts_start config replicated).1
      (order_texts_of_compiled (compiled_calls requests)) other
  obtain ⟨same_config, same_theme⟩ := same_start config replicated mirrored
  rw [answersOf, answersOf, own, own]
  change (callsOf config mirrored second kind).map _ = (callsOf config replicated first kind).map _
  rw [same]
  apply List.map_congr_left
  intro operation member
  have here : operation.kind = kind := by simpa using List.of_mem_filter member
  have answer := answer_of_same same_config same_theme (here ▸ other) drain drain id
  rwa [Operation.renumber_id] at answer

/-- Runs that ask for the same classes answer them alike, and come to the same index. -/
theorem classes_of_calls {number : Nat → Nat} (injective : Function.Injective number)
    (same : callsOf config mirrored second .classes =
      (callsOf config replicated first .classes).map (·.renumber number)) :
    answersOf config mirrored second .classes = answersOf config replicated first .classes ∧
      ((start drain config mirrored).run second).index =
        ((start drain config replicated).run first).index := by
  obtain ⟨quiet, -⟩ := inserts_start config replicated
  obtain ⟨quiet_too, -⟩ := inserts_start config mirrored
  have alike : (start drain config mirrored).classState =
      (start drain config replicated).classState.renumber number := by
    rw [classState_start, classState_start]
    rfl
  -- Both runs are compared to the one that only asks for the classes of the second one.
  obtain ⟨left, left_state⟩ := transcript_asks injective
    ((start drain config replicated).calls first) alike quiet quiet_too
  obtain ⟨right, right_state⟩ := transcript_asks Function.injective_id
    ((start drain config mirrored).calls second) (ClassState.renumber_id _).symm quiet_too quiet_too
  have asking : (callsOf config mirrored second .classes).map (·.renumber id) =
      (callsOf config replicated first .classes).map (·.renumber number) := by
    rw [← same]
    exact (List.map_congr_left fun operation _ => operation.renumber_id).trans (List.map_id _)
  unfold callsOf at asking
  rw [asking, left] at right
  rw [asking, left_state, ← run_eq_performAll, ← run_eq_performAll] at right_state
  exact ⟨right.symm, (congrArg ClassState.index right_state).symm⟩

theorem filter_runTexts (config : Config) (replicated : Bool) (requests : List Request)
    (group : SheetGroup) :
    (runTexts config replicated requests).filter (fun text => text.1 = group) =
      (defaultTexts config).filter (fun text => text.1 = group) ++
        ((callsOf config replicated requests group.source).flatMap
          (start drain config replicated).texts).filter fun text => text.1 = group := by
  rw [runTexts, List.filter_append, texts_of_group (compiled_calls requests) group]
  rfl

theorem source_runTexts {requests : List Request} {text : SheetGroup × String}
    (member : text ∈ runTexts config replicated requests) : text.1.source ≠ .classes := by
  rcases List.mem_append.mp member with default | called
  · unfold defaultTexts at default
    split at default
    · cases default
    · obtain rfl := List.mem_singleton.mp default
      simp [SheetGroup.source]
  · obtain ⟨operation, among, inside⟩ := List.mem_flatMap.mp called
    obtain ⟨source, other⟩ := source_texts (compiled_calls requests) among inside
    exact source ▸ other

/-- Runs with the same index and the same operations of the other kinds insert alike into each
group. -/
theorem group_of_calls {insertions others : List Insertion}
    (left : Inserted config replicated first insertions)
    (right : Inserted config mirrored second others)
    (index : ((start drain config mirrored).run second).index =
      ((start drain config replicated).run first).index)
    (same : ∀ group : SheetGroup, group.source ≠ .classes →
      callsOf config mirrored second group.source = callsOf config replicated first group.source)
    (group : SheetGroup) :
    (insertions.filter fun insertion => insertion.group = group) =
      others.filter fun insertion => insertion.group = group := by
  have texts (texts : List (SheetGroup × String)) :
      (texts.map textInsertion).filter (fun insertion => insertion.group = group) =
        (texts.filter fun text => text.1 = group).map textInsertion :=
    List.filter_map
  rw [left.filter_group, right.filter_group, index]
  split
  · rfl
  · next other =>
    obtain ⟨same_config, same_theme⟩ := same_start config replicated mirrored
    rw [texts, texts, filter_runTexts, filter_runTexts, same group other,
      funext (texts_of_same same_config same_theme)]

/-- Runs with the same index and the same operations of the other kinds hash the same texts. -/
theorem runHashes_of_calls (index : ((start drain config mirrored).run second).index =
      ((start drain config replicated).run first).index)
    (same : ∀ group : SheetGroup, group.source ≠ .classes →
      callsOf config mirrored second group.source = callsOf config replicated first group.source) :
    runHashes config mirrored second ⊆ runHashes config replicated first := by
  obtain ⟨same_config, same_theme⟩ := same_start config replicated mirrored
  have texts : runTexts config mirrored second ⊆ runTexts config replicated first := by
    intro text member
    have other := source_runTexts member
    have here : text ∈ (runTexts config mirrored second).filter (fun one => one.1 = text.1) :=
      List.mem_filter.mpr ⟨member, by simp⟩
    rw [filter_runTexts, same text.1 other, funext (texts_of_same same_config same_theme),
      ← filter_runTexts] at here
    exact List.mem_of_mem_filter here
  intro parts member
  rcases List.mem_append.mp member with declared | written
  · rw [index] at declared
    exact List.mem_append_left _ declared
  · exact List.mem_append_right _ (List.map_subset _ texts written)

/-- Runs with the same operations of each kind answer the same classes, keyframes and themes, and
lead to the same rules, in whatever order the kinds come. Other operations are free, and styles may
be kept under other numbers. -/
theorem kinds_commute {number : Nat → Nat} (injective : Function.Injective number)
    (classes : callsOf config mirrored second .classes =
      (callsOf config replicated first .classes).map (·.renumber number))
    (globals : callsOf config mirrored second .globals = callsOf config replicated first .globals)
    (themes : callsOf config mirrored second .themes = callsOf config replicated first .themes)
    (apart : Hash.Apart (runHashes config replicated first)) :
    (∀ kind, kind ≠ .preparation →
        answersOf config mirrored second kind = answersOf config replicated first kind) ∧
      ((start drain config mirrored).run second).sheet.rules =
        ((start drain config replicated).run first).sheet.rules := by
  obtain ⟨answers, index⟩ := classes_of_calls injective classes
  constructor
  · intro kind _
    cases kind with
    | preparation => contradiction
    | classes => exact answers
    | globals => exact answersOf_other (by simp) globals
    | themes => exact answersOf_other (by simp) themes
  · have same (group : SheetGroup) (other : group.source ≠ .classes) :
        callsOf config mirrored second group.source =
          callsOf config replicated first group.source := by
      cases group with
      | imports | global => exact globals
      | themed => exact themes
      | atomic | nested | conditional => exact absurd rfl other
    have hashes := runHashes_of_calls index same
    have apart_too : Hash.Apart (runHashes config mirrored second) :=
      fun one inside other within => apart one (hashes inside) other (hashes within)
    obtain ⟨insertions, left⟩ := exists_inserted config replicated first
    obtain ⟨others, right⟩ := exists_inserted config mirrored second
    rw [left.rules, right.rules]
    exact Sheet.rules_of_groups none none (right.group_of_hash apart_too) (left.group_of_hash apart)
      fun group => (group_of_calls left right index same group).symm

end Run

theorem calls_compile {node : StyleNode} {definition : StyleDefinition}
    (parsed : StyleDefinition.parse node = .ok definition)
    (checked : engine.check definition = .ok ()) (rest : List Request) :
    engine.calls (.compile node :: rest) =
      .css node ::
        ({ engine with styles := engine.styles ++ [definition] } : Engine).calls rest := by
  simp only [calls, operations, serve, css, parsed, compile, checked, List.cons_append,
    List.nil_append]

theorem calls_classOfStyle {number : Nat} {style : CompiledStyle}
    (known : engine.style? number = some style) (selection : VariantSelection)
    (override : Option StyleNode) (rest : List Request) :
    engine.calls (.classOfStyle number selection override :: rest) =
      .className style selection override ::
        (engine.className drain style selection override).2.calls rest := by
  simp only [calls, operations, serve, known, List.cons_append, List.nil_append]

/-- An animation and a theme come before or after a class, and its style is compiled first or
second. -/
theorem animated_before_or_after :
    let config : Config := ⟨"x", .empty, [], .empty, .empty⟩
    let node (color : String) : StyleNode := [("color", .text color)]
    let animation : StyleNode := [("from", .node [("opacity", .text "0")])]
    let first : List Request :=
      [.compile (node "red"), .compile (node "blue"), .classOfStyle 1 [] none,
      .keyframes animation, .theme (some "dark") .empty]
    let second : List Request :=
      [.compile (node "blue"), .compile (node "red"), .theme (some "dark") .empty,
      .keyframes animation, .classOfStyle 0 [] none]
    (∀ kind, kind ≠ .preparation →
        answersOf config true second kind = answersOf config false first kind) ∧
      ((start drain config true).run second).sheet.rules =
        ((start drain config false).run first).sheet.rules := by
  intro config node animation first second
  let style (color : String) : StyleDefinition := ⟨node color, [], [], []⟩
  let compiled (replicated : Bool) (one other : String) : Engine :=
    { bare config replicated with styles := [style one, style other] }
  have twice (replicated : Bool) {one other : String} (named : one ∈ ["red", "blue"])
      (named_too : other ∈ ["red", "blue"]) (rest : List Request) :
      (start drain config replicated).calls (.compile (node one) :: .compile (node other) :: rest) =
        .css (node one) :: .css (node other) :: (compiled replicated one other).calls rest := by
    have checked : ∀ color ∈ ["red", "blue"],
        (bare config replicated).check (style color) = .ok () := by
      cases replicated <;> decide +kernel
    have again :
        ({ bare config replicated with styles := [style one] } : Engine).check (style other) =
        .ok () := checked other named_too
    exact (calls_compile rfl (checked one named) _).trans (congrArg _ (calls_compile rfl again _))
  have called : (start drain config false).calls first = [.css (node "red"), .css (node "blue"),
      .className ⟨1, style "blue"⟩ [] none, .keyframes animation,
        .createTheme (some "dark") .empty] := by
    have known : (compiled false "red" "blue").style? 1 = some ⟨1, style "blue"⟩ := rfl
    rw [twice false (.head _) (.tail _ (.head _)), calls_classOfStyle known]
    rfl
  have called_second : (start drain config true).calls second =
      [.css (node "blue"), .css (node "red"), .createTheme (some "dark") .empty,
        .keyframes animation, .className ⟨0, style "blue"⟩ [] none] := by
    let between : List Request := [.theme (some "dark") .empty, .keyframes animation]
    have continues :=
      (continues_holdsAcross continues_drain).run (compiled true "blue" "red") between
    have grows := (continues.1 (sorted_bare config true)).1
    have known : (compiled true "blue" "red").style? 0 = some ⟨0, style "blue"⟩ := rfl
    have asked := calls_classOfStyle (grows.style? known) [] none []
    rw [twice true (.tail _ (.head _)) (.head _)]
    exact congrArg (fun calls => _ :: _ :: _ :: _ :: calls) asked
  have distinct : ((runHashes config false first).map Hash.content).Nodup := by decide +kernel
  have apart : Hash.Apart (runHashes config false first) :=
    fun _ inside _ within => List.inj_on_of_nodup_map distinct inside within
  refine kinds_commute (Equiv.swap 0 1).injective ?_ ?_ ?_ apart <;>
    · rw [callsOf, callsOf, called, called_second]
      rfl

end AtomicCss.Engine
