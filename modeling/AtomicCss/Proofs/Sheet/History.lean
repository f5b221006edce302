import AtomicCss.Proofs.Sheet.Cascade

/-!
Replaying the deliveries of a sheet.

A history is a sheet together with what was inserted into it and what was delivered from it, in
whatever order the two kinds of calls came. Deliveries leave in the order of the insertions, and
replaying the deliveries so far gives the rules as they stood right after the last delivered one was
inserted, whatever was inserted since.
-/

namespace AtomicCss

theorem Delivery.replay_append (rules : List String) (first second : List Delivery) :
    replay rules (first ++ second) = (replay rules first).bind (replay · second) := by
  induction first generalizing rules with
  | nil => rfl
  | cons delivery rest ih =>
    simp only [List.cons_append, replay]
    split
    · exact ih _
    · rfl

/-- Delivering a rule that split a sheet brings a copy of the sheet up to date. -/
theorem Sheet.Splits.replay {rule : SheetRule} {index : Nat} {rules after : List SheetRule}
    (split : Splits rule index rules after) :
    Delivery.replay (rules.map (·.css)) [⟨rule.css, index⟩] = some (after.map (·.css)) := by
  obtain ⟨front, back, rfl, rfl, rfl, -, -⟩ := split
  have inserted := insertIdx_length_append (front.map (·.css)) (back.map (·.css)) rule.css
  rw [List.length_map] at inserted
  simp [Delivery.replay, inserted]

inductive SheetCall where
  | insert (insertion : Insertion)
  | nextPending

/-- A sheet with what its calls answered so far. -/
structure SheetHistory where
  sheet : Sheet
  /-- The rules that were inserted and the positions that they took, oldest first. -/
  inserted : List Delivery
  /-- The texts of the sheet without rules and right after each insertion. -/
  stages : List (List String)
  /-- What was taken from the queue, oldest first. -/
  delivered : List Delivery

namespace SheetHistory

def start : SheetHistory := ⟨.replicated, [], [[]], []⟩

def call (history : SheetHistory) : SheetCall → SheetHistory
  | .insert insertion => match history.sheet.take insertion with
    | (none, sheet) => { history with sheet }
    | (some index, sheet) =>
      { history with
        sheet
        inserted := history.inserted ++ [⟨insertion.css, index⟩]
        stages := history.stages ++ [sheet.texts] }
  | .nextPending => match history.sheet.nextPending with
    | (none, sheet) => { history with sheet }
    | (some delivery, sheet) =>
      { history with sheet, delivered := history.delivered ++ [delivery] }

def run (history : SheetHistory) (calls : List SheetCall) : SheetHistory := calls.foldl call history

theorem run_append (history : SheetHistory) (first second : List SheetCall) :
    history.run (first ++ second) = (history.run first).run second :=
  List.foldl_append

/-- What holds of every history: the queue holds what was not delivered, and each stage is a
replay. -/
structure Faithful (history : SheetHistory) : Prop where
  sorted : history.sheet.Sorted
  queue : ∃ queue, history.sheet.pending = some queue ∧
    history.inserted = history.delivered ++ queue
  length : history.stages.length = history.inserted.length + 1
  stage : ∀ count, count ≤ history.inserted.length →
    Delivery.replay [] (history.inserted.take count) = history.stages[count]?
  last : history.stages[history.inserted.length]? = some history.sheet.texts

theorem faithful_start : start.Faithful where
  sorted := Sheet.sorted_fresh (some [])
  queue := ⟨[], rfl, rfl⟩
  length := rfl
  stage count small := by
    obtain rfl : count = 0 := Nat.le_zero.mp small
    rfl
  last := by
    have none_yet : Sheet.replicated.rules = [] := Sheet.rules_fresh (some [])
    simp [start, Sheet.texts, none_yet]

/-- A further insertion adds the stage that its delivery leads to. -/
theorem Faithful.insert {history : SheetHistory} (faithful : history.Faithful)
    {insertion : Insertion} {index : Nat} {after : Sheet} (sorted : after.Sorted)
    (split : Sheet.Splits insertion.rule index history.sheet.rules after.rules)
    (pending : after.pending = history.sheet.pending.map (· ++ [⟨insertion.css, index⟩])) :
    Faithful
      { sheet := after
        inserted := history.inserted ++ [⟨insertion.css, index⟩]
        stages := history.stages ++ [after.texts]
        delivered := history.delivered } := by
  obtain ⟨queue, queued, inserted_eq⟩ := faithful.queue
  have length := faithful.length
  refine ⟨sorted, ⟨queue ++ [⟨insertion.css, index⟩], ?_, ?_⟩, ?_, ?_, ?_⟩
  · simp [pending, queued]
  · simp [inserted_eq]
  · simp [length]
  · intro count small
    rw [List.length_append, List.length_singleton] at small
    rcases Nat.lt_or_eq_of_le small with earlier | rfl
    · have within : count ≤ history.inserted.length := by omega
      rw [List.take_append_of_le_length within, faithful.stage count within,
        List.getElem?_append_left (by omega)]
    · have before := faithful.stage _ (Nat.le_refl _)
      rw [List.take_length, faithful.last] at before
      rw [List.take_of_length_le (by simp), Delivery.replay_append, before, Option.bind_some,
        List.getElem?_append_right (by omega)]
      simpa [length, Sheet.texts, Insertion.rule] using split.replay
  · simp [length]

theorem Faithful.call {history : SheetHistory} (faithful : history.Faithful) (call : SheetCall) :
    (history.call call).Faithful := by
  cases call with
  | insert insertion =>
    by_cases seen : insertion.hash ∈ history.sheet.seen
    · have refused : history.sheet.take insertion = (none, history.sheet) :=
        Sheet.insert_of_seen seen _ _ _
      simpa [SheetHistory.call, refused] using faithful
    · obtain ⟨index, after, taken, split, sorted, -, pending⟩ := Sheet.insert_of_fresh
        faithful.sorted seen insertion.group insertion.rank insertion.css
      have answer : history.sheet.take insertion = (some index, after) := taken
      simpa [SheetHistory.call, answer] using faithful.insert sorted split pending
  | nextPending =>
    obtain ⟨queue, queued, inserted_eq⟩ := faithful.queue
    cases queue with
    | nil => simpa [SheetHistory.call, Sheet.nextPending, queued] using faithful
    | cons delivery rest =>
      simp only [SheetHistory.call, Sheet.nextPending, queued]
      exact ⟨faithful.sorted, ⟨rest, rfl, by simp [inserted_eq]⟩, faithful.length, faithful.stage,
        faithful.last⟩

theorem Faithful.run {history : SheetHistory} (faithful : history.Faithful)
    (calls : List SheetCall) : (history.run calls).Faithful := by
  induction calls generalizing history with
  | nil => exact faithful
  | cons call rest ih => exact ih (faithful.call call)

theorem Faithful.delivered_eq {history : SheetHistory} (faithful : history.Faithful) :
    history.delivered = history.inserted.take history.delivered.length := by
  obtain ⟨queue, -, inserted_eq⟩ := faithful.queue
  simp [inserted_eq]

/-- Replaying the deliveries gives the stage right after the last of them was inserted. -/
theorem Faithful.replay_delivered {history : SheetHistory} (faithful : history.Faithful) :
    ∃ rules, history.stages[history.delivered.length]? = some rules ∧
      Delivery.replay [] history.delivered = some rules := by
  obtain ⟨queue, -, inserted_eq⟩ := faithful.queue
  have counts : history.delivered.length ≤ history.inserted.length := by simp [inserted_eq]
  have within : history.delivered.length < history.stages.length := by
    have length := faithful.length
    omega
  refine ⟨history.stages[history.delivered.length], List.getElem?_eq_getElem within, ?_⟩
  rw [← List.getElem?_eq_getElem within, ← faithful.stage _ counts, ← faithful.delivered_eq]

/-- Once the queue is empty, the deliveries are all insertions and lead to the rules of the
sheet. -/
theorem Faithful.replay_all {history : SheetHistory} (faithful : history.Faithful)
    (drained : history.sheet.pending = some []) :
    history.delivered = history.inserted ∧
      Delivery.replay [] history.delivered = some history.sheet.texts := by
  obtain ⟨queue, queued, inserted_eq⟩ := faithful.queue
  obtain rfl : queue = [] := by simpa [drained] using queued.symm
  have all : history.delivered = history.inserted := by simp [inserted_eq]
  obtain ⟨rules, stage, replayed⟩ := faithful.replay_delivered
  rw [all, faithful.last] at stage
  exact ⟨all, by rw [replayed, stage]⟩

end SheetHistory

end AtomicCss
