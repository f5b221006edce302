import AtomicCss.Manifest.Compilation
import AtomicCss.Proofs.Engine.Retention
import AtomicCss.Proofs.NameMap

/-!
Steps of a compilation that can be taken again.

A step that succeeds enters what it made into the class map, and leaves something in the engine that
is not lost when the engine goes on. What it leaves is all that it takes for the step to succeed
again with the same answer and the same entries, without touching the sheet. Steps that are taken
one after another are such a step.
-/

namespace AtomicCss

/-- What a step enters into a class map. -/
inductive ClassMap.Entry where
  | theme (name className : String)
  | keyframes (name generated : String)
  | style (name : String) (renders : List RenderedClass)

namespace ClassMap

def enter (classes : ClassMap) : Entry → ClassMap
  | .theme name className => { classes with themes := classes.themes.insert name className }
  | .keyframes name generated =>
    { classes with keyframes := classes.keyframes.insert name generated }
  | .style name renders => { classes with styles := classes.styles.insert name renders }

def enterAll (classes : ClassMap) (entries : List Entry) : ClassMap := entries.foldl enter classes

namespace Entry

def theme? : Entry → Option (String × String)
  | theme name className => some (name, className)
  | _ => none

def keyframes? : Entry → Option (String × String)
  | keyframes name generated => some (name, generated)
  | _ => none

def style? : Entry → Option (String × List RenderedClass)
  | style name renders => some (name, renders)
  | _ => none

end Entry

theorem enterAll_append (classes : ClassMap) (first second : List Entry) :
    classes.enterAll (first ++ second) = (classes.enterAll first).enterAll second :=
  List.foldl_append

/-- The entries of each kind go into a map of their own. -/
theorem enterAll_eq (classes : ClassMap) (entries : List Entry) :
    classes.enterAll entries =
      ⟨classes.themes.insertAll (entries.filterMap Entry.theme?),
        classes.keyframes.insertAll (entries.filterMap Entry.keyframes?),
        classes.styles.insertAll (entries.filterMap Entry.style?)⟩ := by
  induction entries generalizing classes with
  | nil => rfl
  | cons entry rest ih =>
    rw [enterAll, List.foldl_cons, ← enterAll, ih]
    cases entry <;> rfl

theorem enterAll_again (classes : ClassMap) (entries : List Entry) :
    (classes.enterAll entries).enterAll entries = classes.enterAll entries := by
  rw [enterAll_eq (classes.enterAll entries), enterAll_eq classes]
  simp only [NameMap.insertAll_again]

end ClassMap

namespace Compilation

section Runs

variable {α β : Type} {start last : Compilation} {path part : String}

theorem run_bind_eq_ok {step : Step α} {next : α → Step β} {found : β} :
    run start (step >>= next) = (.ok found, last) ↔
      ∃ value middle, run start step = (.ok value, middle) ∧
        run middle (next value) = (.ok found, last) := by
  have unfolded : run start (step >>= next) = match run start step with
      | (.ok value, middle) => run middle (next value)
      | (.error error, middle) => (.error error, middle) := by
    simp only [run, ExceptT.run_bind, StateT.run_bind]
    rcases StateT.run (ExceptT.run step) start with ⟨error | value, middle⟩ <;> rfl
  rw [unfolded]
  rcases run start step with ⟨error | value, middle⟩
  · simp
  · simp

theorem run_pure_eq_ok {value found : α} :
    run start (pure value) = (.ok found, last) ↔ found = value ∧ last = start := by
  have unfolded : run start (pure value : Step α) = (.ok value, start) := rfl
  rw [unfolded, Prod.mk.injEq, Except.ok.injEq, eq_comm, eq_comm (a := start)]

theorem run_check_eq_ok {result : Except StyleError α} {found : α} :
    run start (check path part result) = (.ok found, last) ↔ result = .ok found ∧ last = start := by
  cases result with
  | error error =>
    have unfolded : run start (check path part (.error error : Except StyleError α)) =
        (.error (.style path part error), start) := rfl
    simp [unfolded]
  | ok value =>
    have unfolded : run start (check path part (.ok value)) = (.ok value, start) := rfl
    simp [unfolded, eq_comm]

theorem run_withEngine_eq_ok {use : Engine → Except StyleError α × Engine} {found : α} :
    run start (withEngine path part use) = (.ok found, last) ↔
      ∃ engine, use start.engine = (.ok found, engine) ∧ last = { start with engine } := by
  have unfolded : run start (withEngine path part use) =
      run { start with engine := (use start.engine).2 } (check path part (use start.engine).1) :=
        rfl
  rw [unfolded, run_check_eq_ok]
  constructor
  · rintro ⟨told, rfl⟩
    exact ⟨_, Prod.ext told rfl, rfl⟩
  · rintro ⟨engine, used, rfl⟩
    rw [used]
    exact ⟨rfl, rfl⟩

theorem run_record_eq_ok {change : ClassMap → ClassMap} {found : Unit} :
    run start (record change) = (.ok found, last) ↔
      last = { start with classes := change start.classes } := by
  have unfolded :
      run start (record change) = (.ok (), { start with classes := change start.classes }) := rfl
  simp [unfolded, eq_comm]

end Runs

/-- A step that can be taken again by what it leaves. -/
structure Repeats {α : Type} (step : Step α) (Leaves : Engine → List ClassMap.Entry → α → Prop) :
    Prop where
  grow : ∀ {first second entries value}, Engine.Grows first second →
    first.sheet.seen ⊆ second.sheet.seen →
    Leaves first entries value → Leaves second entries value
  proceeds : ∀ {start last value}, start.engine.AtRest → run start step = (.ok value, last) →
    Engine.Proceeds start.engine last.engine
  leaves : ∀ {start last value}, start.engine.AtRest → last.engine.HashesApart →
    run start step = (.ok value, last) →
      ∃ entries, last.classes = start.classes.enterAll entries ∧ Leaves last.engine entries value
  again : ∀ {start entries value}, start.engine.AtRest → start.engine.HashesApart →
    Leaves start.engine entries value →
      ∃ last, run start step = (.ok value, last) ∧ last.classes = start.classes.enterAll entries ∧
        Engine.Unmoved start.engine last.engine

section Repeats

variable {α β : Type} {Leaves : Engine → List ClassMap.Entry → α → Prop}

theorem repeats_pure (value : α) :
    Repeats (pure value) fun _ entries found => found = value ∧ entries = [] where
  grow _ _ := id
  proceeds _ taken := by
    obtain ⟨-, rfl⟩ := run_pure_eq_ok.mp taken
    exact Engine.proceeds_holdsAcross.refl _
  leaves _ _ taken := by
    obtain ⟨same, rfl⟩ := run_pure_eq_ok.mp taken
    exact ⟨[], rfl, same, rfl⟩
  again := by
    rintro start entries value - - ⟨rfl, rfl⟩
    exact ⟨start, rfl, rfl, Engine.unmoved_composes.refl _⟩

theorem repeats_throw (error : ManifestError) :
    Repeats (throw error : Step α) fun _ _ _ => False where
  grow _ _ := id
  proceeds _ taken := by cases taken
  leaves _ _ taken := by cases taken
  again _ _ := False.elim

theorem repeats_check (path part : String) (result : Except StyleError α) :
    Repeats (check path part result) fun _ entries value => result = .ok value ∧ entries = [] where
  grow _ _ := id
  proceeds _ taken := by
    obtain ⟨-, rfl⟩ := run_check_eq_ok.mp taken
    exact Engine.proceeds_holdsAcross.refl _
  leaves _ _ taken := by
    obtain ⟨same, rfl⟩ := run_check_eq_ok.mp taken
    exact ⟨[], rfl, same, rfl⟩
  again := by
    rintro start entries value - - ⟨same, rfl⟩
    exact ⟨start, run_check_eq_ok.mpr ⟨same, rfl⟩, rfl, Engine.unmoved_composes.refl _⟩

theorem repeats_record (entry : ClassMap.Entry) :
    Repeats (record (·.enter entry)) fun _ entries _ => entries = [entry] where
  grow _ _ := id
  proceeds _ taken := by
    obtain rfl := run_record_eq_ok.mp taken
    exact Engine.proceeds_holdsAcross.refl _
  leaves _ _ taken := by
    obtain rfl := run_record_eq_ok.mp taken
    exact ⟨[entry], rfl, rfl⟩
  again := by
    rintro start entries value - - rfl
    exact ⟨_, run_record_eq_ok.mpr rfl, rfl, Engine.unmoved_composes.refl _⟩

/-- An operation that asks for no classes is performed again by what the engine retains of it. -/
theorem repeats_withEngine {path part : String} {use : Engine → Except StyleError α × Engine}
    {operation : Operation} {tells : α → Answer} (injective : Function.Injective tells)
    (other : operation.kind ≠ .classes) (known : ∀ engine, operation.Known engine)
    (performs : ∀ engine,
    engine.perform Engine.drain operation = (use engine).map (Except.map tells) id) :
    Repeats (withEngine path part use) fun engine entries value =>
      engine.Retains operation (tells value) ∧ entries = [] where
  grow grows seen := by
    rintro ⟨retains, rfl⟩
    exact ⟨retains.grow grows.config grows.theme seen, rfl⟩
  proceeds {start _ _} _ taken := by
    obtain ⟨engine, used, rfl⟩ := run_withEngine_eq_ok.mp taken
    have proceeds := Engine.proceeds_holdsAcross.perform (known start.engine)
    rwa [performs, used] at proceeds
  leaves {start _ value} _ _ taken := by
    obtain ⟨engine, used, rfl⟩ := run_withEngine_eq_ok.mp taken
    have performed : start.engine.perform Engine.drain operation = (.ok (tells value), engine) := by
      rw [performs, used]
      rfl
    exact ⟨[], rfl, Engine.retains_of_performed (known start.engine) other performed, rfl⟩
  again := by
    rintro start entries value rests - ⟨retains, rfl⟩
    obtain ⟨styles, performed⟩ := retains.again rests.idle.drain id
    rw [Operation.renumber_id, performs] at performed
    obtain ⟨told, engine⟩ := Engine.told_eq performed
    obtain ⟨found, answered, same⟩ := Engine.ok_of_map_eq_ok told
    obtain rfl := injective same
    exact ⟨_, run_withEngine_eq_ok.mpr ⟨_, Prod.ext answered engine, rfl⟩, rfl, rfl, rfl, rfl⟩

theorem Repeats.bind {step : Step α} {next : α → Step β}
    {LeavesNext : α → Engine → List ClassMap.Entry → β → Prop} (first : Repeats step Leaves)
    (rest : ∀ value, Repeats (next value) (LeavesNext value)) :
    Repeats (step >>= next) fun engine entries found =>
      ∃ value own others, Leaves engine own value ∧ LeavesNext value engine others found ∧
        entries = own ++ others where
  grow grows seen := by
    rintro ⟨value, own, others, left, left_next, rfl⟩
    exact ⟨value, own, others, first.grow grows seen left,
      (rest value).grow grows seen left_next, rfl⟩
  proceeds rests taken := by
    obtain ⟨value, middle, taken_first, taken_rest⟩ := run_bind_eq_ok.mp taken
    have begins := first.proceeds rests taken_first
    exact Engine.proceeds_holdsAcross.trans begins
      ((rest value).proceeds (begins.rests rests) taken_rest)
  leaves := by
    intro start last found rests apart taken
    obtain ⟨value, middle, taken_first, taken_rest⟩ := run_bind_eq_ok.mp taken
    have middle_rests := (first.proceeds rests taken_first).rests rests
    have goes_on := (rest value).proceeds middle_rests taken_rest
    have grows := goes_on.grows middle_rests
    obtain ⟨own, entered, left⟩ := first.leaves rests (grows.apart apart) taken_first
    obtain ⟨others, entered_next, left_next⟩ := (rest value).leaves middle_rests apart taken_rest
    refine ⟨own ++ others, ?_, value, own, others, first.grow grows goes_on.seen left,
      left_next, rfl⟩
    rw [entered_next, entered, ClassMap.enterAll_append]
  again := by
    rintro start entries found rests apart ⟨value, own, others, left, left_next, rfl⟩
    obtain ⟨middle, taken, entered, unmoved⟩ := first.again rests apart left
    have goes_on := first.proceeds rests taken
    have still_left := (rest value).grow (goes_on.grows rests) goes_on.seen left_next
    obtain ⟨last, taken_rest, entered_next, unmoved_rest⟩ :=
      (rest value).again (goes_on.rests rests) (unmoved.apart apart) still_left
    refine ⟨last, run_bind_eq_ok.mpr ⟨value, middle, taken, taken_rest⟩, ?_,
      Engine.unmoved_composes.trans unmoved unmoved_rest⟩
    rw [entered_next, entered, ClassMap.enterAll_append]

theorem Repeats.congr {Other : Engine → List ClassMap.Entry → α → Prop} {step : Step α}
    (repeats : Repeats step Leaves)
    (same : ∀ engine entries value, Leaves engine entries value ↔ Other engine entries value) :
    Repeats step Other := by
  have equal : Leaves = Other := by
    funext engine entries value
    exact propext (same engine entries value)
  exact equal ▸ repeats

/-- A step that enters nothing, before others. -/
theorem Repeats.bind_silent {Holds : Engine → α → Prop} {step : Step α} {next : α → Step β}
    {LeavesNext : α → Engine → List ClassMap.Entry → β → Prop}
    (first : Repeats step fun engine entries value => Holds engine value ∧ entries = [])
    (rest : ∀ value, Repeats (next value) (LeavesNext value)) :
    Repeats (step >>= next) fun engine entries found =>
      ∃ value, Holds engine value ∧ LeavesNext value engine entries found := by
  apply (first.bind rest).congr
  intro engine entries found
  constructor
  · rintro ⟨value, _, others, ⟨holds, rfl⟩, left, rfl⟩
    exact ⟨value, holds, left⟩
  · rintro ⟨value, holds, left⟩
    exact ⟨value, [], entries, ⟨holds, rfl⟩, left, rfl⟩

theorem Repeats.then_pure {step : Step α} (repeats : Repeats step Leaves) (tells : α → β) :
    Repeats (step >>= fun value => pure (tells value)) fun engine entries found =>
      ∃ value, Leaves engine entries value ∧ found = tells value := by
  apply (repeats.bind fun value => repeats_pure (tells value)).congr
  intro engine entries found
  constructor
  · rintro ⟨value, own, _, left, ⟨rfl, rfl⟩, rfl⟩
    exact ⟨value, (List.append_nil own).symm ▸ left, rfl⟩
  · rintro ⟨value, left, rfl⟩
    exact ⟨value, entries, [], left, ⟨rfl, rfl⟩, (List.append_nil entries).symm⟩

variable {Item Made : Type} {Fact : Item → Engine → Made → Prop} {enters : Made → ClassMap.Entry}

/-- Steps for the items of a list, each of which enters what it made of its item. -/
theorem repeats_mapM {step : Item → Step α} {tells : Made → α} {items : List Item}
    (each : ∀ item ∈ items, Repeats (step item) fun engine entries value =>
      ∃ made, Fact item engine made ∧ entries = [enters made] ∧ value = tells made) :
    Repeats (items.mapM step) fun engine entries values =>
      ∃ all, List.Forall₂ (fun item made => Fact item engine made) items all ∧
        entries = all.map enters ∧ values = all.map tells := by
  induction items with
  | nil =>
    apply (repeats_pure []).congr
    simp [and_comm]
  | cons item rest ih =>
    obtain ⟨own, others⟩ := List.forall_mem_cons.mp each
    rw [List.mapM_cons]
    apply (own.bind fun value => (ih others).then_pure (value :: ·)).congr
    intro engine entries values
    constructor
    · rintro ⟨_, _, _, ⟨made, fact, rfl, rfl⟩, ⟨_, ⟨all, facts, rfl, rfl⟩, rfl⟩, rfl⟩
      exact ⟨made :: all, .cons fact facts, rfl, rfl⟩
    · rintro ⟨_, facts, rfl, rfl⟩
      obtain ⟨made, all, fact, others, rfl⟩ := List.forall₂_cons_left_iff.mp facts
      exact ⟨_, _, _, ⟨made, fact, rfl, rfl⟩, ⟨_, ⟨all, others, rfl, rfl⟩, rfl⟩, rfl⟩

theorem forM_eq_mapM (step : Item → Step Unit) (items : List Item) :
    items.forM step = items.mapM step >>= fun _ => pure () := by
  induction items with
  | nil => rfl
  | cons item rest ih =>
    change (step item >>= fun _ => rest.forM step) = _
    simp only [ih, List.mapM_cons, bind_assoc, pure_bind]

theorem repeats_forM {step : Item → Step Unit} {items : List Item}
    (each : ∀ item ∈ items, Repeats (step item) fun engine entries _ =>
      ∃ made, Fact item engine made ∧ entries = [enters made]) :
    Repeats (items.forM step) fun engine entries _ =>
      ∃ all, List.Forall₂ (fun item made => Fact item engine made) items all ∧
        entries = all.map enters := by
  have each_tells : ∀ item ∈ items, Repeats (step item) fun engine entries value =>
      ∃ made, Fact item engine made ∧ entries = [enters made] ∧ value = () :=
    fun item member => (each item member).congr (by simp)
  rw [forM_eq_mapM]
  apply ((repeats_mapM each_tells).then_pure fun _ => ()).congr
  intro engine entries _
  constructor
  · rintro ⟨_, ⟨all, facts, rfl, rfl⟩, -⟩
    exact ⟨all, facts, rfl⟩
  · rintro ⟨all, facts, rfl⟩
    exact ⟨_, ⟨all, facts, rfl, rfl⟩, rfl⟩

end Repeats

end Compilation

end AtomicCss
