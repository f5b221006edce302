import AtomicCss.Proofs.Engine.Calls
import AtomicCss.Proofs.Sheet.History

/-!
Deliveries of an engine whose replica calls back.

An engine uses its sheet by insertions and by taking deliveries from the queue, and hands what it
takes to the replica. So its runs are histories of the sheet, whatever calls the replica makes while
a rule is delivered to it; and since the outermost call drains the queue, the replica then holds the
sheet.
-/

namespace AtomicCss.Engine

/-- The sheet of the engine and what its replica received are those of a history. -/
def Shows (engine : Engine) (history : SheetHistory) : Prop :=
  engine.sheet = history.sheet ∧ ∃ script, engine.replica = some ⟨history.delivered, script⟩

/-- The second engine comes from the first by calls on the sheet. -/
def Follows (first second : Engine) : Prop :=
  ∀ history, first.Shows history → ∃ calls, second.Shows (history.run calls)

theorem follows_composes : Composes Follows where
  refl _ _ shows := ⟨[], shows⟩
  trans earlier later history shows := by
    obtain ⟨calls, shows⟩ := earlier history shows
    obtain ⟨more, shows⟩ := later _ shows
    exact ⟨calls ++ more, by rwa [SheetHistory.run_append]⟩

theorem follows_of_eq {first second : Engine} (sheet : second.sheet = first.sheet)
    (replica : second.replica = first.replica) : Follows first second := by
  intro history shows
  exact ⟨[], by simpa [Shows, SheetHistory.run, sheet, replica] using shows⟩

theorem follows_take (engine : Engine) (insertion : Insertion) :
    Follows engine { engine with sheet := (engine.sheet.take insertion).2 } := by
  rintro history ⟨sheet, script, replica⟩
  refine ⟨[.insert insertion], ?_⟩
  simp only [Shows, sheet, SheetHistory.run, List.foldl_cons, List.foldl_nil, SheetHistory.call]
  split <;> next answer => exact ⟨by rw [answer], script, replica⟩

theorem follows_deliver : HoldsAcrossDelivery Follows := by
  rintro engine delivery sheet script popped history ⟨same, earlier, replica⟩
  refine ⟨[.nextPending], ?_, script, ?_⟩
  · simp [SheetHistory.run, SheetHistory.call, ← same, popped, deliver]
  · simp [SheetHistory.run, SheetHistory.call, ← same, popped, deliver, replica]

theorem follows_emit (engine : Engine) (declaration : AtomicDeclaration) :
    Follows engine (engine.emit declaration).2 := by
  unfold emit
  split
  · exact follows_of_eq rfl rfl
  · next className rule index _ =>
    have taken := follows_take engine
      ⟨declaration.group, declaration.rank engine.config.breakpoints, rule.slot, rule.css⟩
    exact follows_composes.trans taken (follows_of_eq rfl rfl)

theorem follows_emitAll (engine : Engine) (declarations : List AtomicDeclaration)
    (classes : List String) : Follows engine (engine.emitAll declarations classes).2 := by
  induction declarations generalizing engine classes with
  | nil => exact follows_composes.refl engine
  | cons declaration rest ih =>
    exact follows_composes.trans (follows_emit engine declaration) (ih _ _)

section Settled

variable {settle : Settle Engine}

theorem follows_insertText (settles : ∀ engine, Follows engine (settle engine)) (engine : Engine)
    (group : SheetGroup) (css : String) : Follows engine (engine.insertText settle group css) :=
  follows_composes.trans
    (follows_take engine ⟨group, 0, Hash.content (textParts group css), css⟩) (settles _)

theorem follows_settled (settles : ∀ engine, Follows engine (settle engine)) (engine : Engine)
    (declarations : List AtomicDeclaration) : Follows engine (engine.settled settle declarations) :=
  follows_composes.trans (follows_emitAll engine declarations []) (settles _)

theorem follows_className (settles : ∀ engine, Follows engine (settle engine)) (engine : Engine)
    (style : CompiledStyle) (selection : VariantSelection) (override : Option StyleNode) :
    Follows engine (engine.className settle style selection override).2 := by
  have asked := engine.asked_className settle style selection override
  generalize engine.className settle style selection override = answer at asked ⊢
  cases asked with
  | remembered _ => exact follows_composes.refl engine
  | refused _ => exact follows_composes.refl engine
  | overridden _ => exact follows_settled settles engine _
  | noted _ _ =>
    exact follows_composes.trans (follows_settled settles engine _) (follows_of_eq rfl rfl)

theorem follows_holdsAcross (settles : ∀ engine, Follows engine (settle engine)) :
    HoldsAcross settle Follows where
  toComposes := follows_composes
  compiled _ _ := follows_of_eq rfl rfl
  text engine group css _ := follows_insertText settles engine group css
  asked engine style selection override _ :=
    follows_className settles engine style selection override

end Settled

theorem follows_drain (engine : Engine) : Follows engine engine.drain :=
  related_drain (follows_holdsAcross follows_composes.refl) follows_deliver engine

/-- The engine shows a history of a sheet that was empty at first. -/
def Recorded (engine : Engine) : Prop := ∃ calls, engine.Shows (SheetHistory.start.run calls)

theorem Recorded.follow {first second : Engine} (recorded : first.Recorded)
    (follows : Follows first second) : second.Recorded := by
  obtain ⟨calls, shows⟩ := recorded
  obtain ⟨more, shows⟩ := follows _ shows
  exact ⟨calls ++ more, by rwa [SheetHistory.run_append]⟩

theorem Recorded.pending {engine : Engine} (recorded : engine.Recorded) :
    ∃ queue, engine.sheet.pending = some queue := by
  obtain ⟨calls, sheet, -⟩ := recorded
  obtain ⟨queue, queued, -⟩ := (SheetHistory.faithful_start.run calls).queue
  exact ⟨queue, by rw [sheet, queued]⟩

theorem Recorded.replica {engine : Engine} (recorded : engine.Recorded) :
    ∃ replica, engine.replica = some replica := by
  obtain ⟨calls, -, script, replica⟩ := recorded
  exact ⟨_, replica⟩

theorem pending_deliverAll (engine : Engine) (queue : List Delivery) :
    (engine.deliverAll queue).sheet.pending = some [] := by
  have kept : ∀ start : Engine,
      (queue.foldl (fun engine delivery => engine.deliver delivery []) start).sheet =
        start.sheet := by
    induction queue with
    | nil => exact fun _ => rfl
    | cons delivery rest ih => exact fun start => ih (start.deliver delivery [])
  rw [deliverAll, kept]

theorem pending_drainWith (script : List (List Request)) {engine : Engine}
    (recorded : engine.Recorded) : (engine.drainWith script).sheet.pending = some [] := by
  induction script generalizing engine with
  | nil =>
    obtain ⟨queue, queued⟩ := recorded.pending
    simp only [drainWith, queued]
    exact pending_deliverAll engine queue
  | cons requests script ih =>
    obtain ⟨queue, queued⟩ := recorded.pending
    cases queue with
    | nil => simp [drainWith, Sheet.nextPending, queued]
    | cons delivery rest =>
      have popped := nextPending_of_cons queued
      simp only [drainWith, popped]
      have delivered := recorded.follow (follows_deliver engine delivery _ script popped)
      have nested : HoldsAcross id Follows := follows_holdsAcross follows_composes.refl
      exact ih (delivered.follow
        (nested.foldl (fun request _ engine => nested.serve engine request) _))

theorem pending_drain {engine : Engine} (recorded : engine.Recorded) :
    engine.drain.sheet.pending = some [] := by
  obtain ⟨replica, kept⟩ := recorded.replica
  simp only [drain, kept]
  exact pending_drainWith replica.script recorded

def Drained (engine : Engine) : Prop := engine.Recorded ∧ engine.sheet.pending = some []

theorem Recorded.drained {engine : Engine} (recorded : engine.Recorded) : engine.drain.Drained :=
  ⟨recorded.follow (follows_drain engine), pending_drain recorded⟩

/-- Every part of an outermost call drains what it queued. -/
theorem drained_holdsAcross :
    HoldsAcross drain fun first second => first.Drained → second.Drained where
  refl _ := id
  trans earlier later := later ∘ earlier
  compiled _ _ := id
  text engine group css _ drained :=
    Recorded.drained (drained.1.follow
      (follows_take engine ⟨group, 0, Hash.content (textParts group css), css⟩))
  asked engine style selection override _ drained := by
    have asked := engine.asked_className drain style selection override
    generalize engine.className drain style selection override = answer at asked ⊢
    have emitted (declarations : List AtomicDeclaration) :
        (engine.settled drain declarations).Drained :=
      Recorded.drained (drained.1.follow (follows_emitAll engine declarations []))
    cases asked with
    | remembered _ => exact drained
    | refused _ => exact drained
    | overridden _ => exact emitted _
    | noted _ _ => exact emitted _

theorem drained_bare (config : Config) : (bare config true).Drained :=
  ⟨⟨[], rfl, [], rfl⟩, rfl⟩

theorem drained_start (config : Config) : (start drain config true).Drained := by
  simp only [start]
  split
  · exact drained_bare config
  · exact drained_holdsAcross.text _ .themed _ (by decide) (drained_bare config)

theorem Drained.withScript {engine : Engine} (drained : engine.Drained)
    (script : List (List Request)) : (engine.withScript script).Drained := by
  obtain ⟨⟨calls, sheet, earlier, replica⟩, pending⟩ := drained
  exact ⟨⟨calls, sheet, script, by simp [Engine.withScript, replica]⟩, pending⟩

/-- Replaying the deliveries of a sheet gives the rules as they stood right after the last of them
was inserted. Once a call on an engine returns, its replica received each rule once, in the order of
the insertions, and holds the text of the sheet, whatever calls it made meanwhile. -/
theorem replay_deliveries :
    (∀ calls, let history := SheetHistory.start.run calls
      history.delivered = history.inserted.take history.delivered.length ∧
        ∃ rules, history.stages[history.delivered.length]? = some rules ∧
          Delivery.replay [] history.delivered = some rules) ∧
      ∀ config script requests,
        let engine := ((start drain config true).withScript script).run requests
        (∃ calls left, let history := SheetHistory.start.run calls
          engine.sheet = history.sheet ∧ engine.replica = some ⟨history.delivered, left⟩ ∧
            history.delivered = history.inserted) ∧
          engine.sheet.hasPending = false ∧ engine.replicated? = some engine.sheet.texts ∧
            engine.replicated?.map String.join = some engine.cssText := by
  refine ⟨fun calls => ?_, fun config script requests => ?_⟩
  · have faithful := SheetHistory.faithful_start.run calls
    exact ⟨faithful.delivered_eq, faithful.replay_delivered⟩
  · obtain ⟨⟨calls, sheet, left, replica⟩, pending⟩ :=
      drained_holdsAcross.run _ requests ((drained_start config).withScript script)
    generalize ((start drain config true).withScript script).run requests = engine at *
    have faithful := SheetHistory.faithful_start.run calls
    obtain ⟨all, replayed⟩ := faithful.replay_all (by rw [← sheet, pending])
    have holds : engine.replicated? = some engine.sheet.texts := by
      simp only [replicated?, replica, Option.bind_some, replayed, sheet]
    exact ⟨⟨calls, left, sheet, replica, all⟩, by simp [Sheet.hasPending, pending], holds,
      by simp [holds, cssText, Sheet.text]⟩

end AtomicCss.Engine
