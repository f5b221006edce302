import AtomicCss.Proofs.Rule.Flattening
import AtomicCss.Rule.Frames

/-!
The walk on a stack of frames does what the recursion does.

Under whatever frames, the frames of an entry's blocks and of its expansion are walked until they
are taken away again, with the rules that the recursion writes there, or the walk ends with the
error that the recursion ends with. The induction is that of the recursion; a turn differs from its
step in the numbers only, which are words.
-/

namespace AtomicCss

theorem FlatRule.word_of_small {rule : FlatRule} (origin : rule.origin < UInt32.size)
    (block : rule.block < UInt32.size) : rule.word = rule := by
  simp [word, UInt32.toNat_ofNat_of_lt' origin, UInt32.toNat_ofNat_of_lt' block]

namespace Flatten

def Place.word (place : Place) : Place := { place with block := (UInt32.ofNat place.block).toNat }

def Output.word (out : Output) : Output :=
  ⟨out.rules.map FlatRule.word, (UInt32.ofNat out.nextOrigin).toNat,
    (UInt32.ofNat out.nextBlock).toNat⟩

variable {vocabulary : Vocabulary} {mode : FlattenMode}

/-- What an entry comes to when numbers are counted in words. -/
inductive Step.Worded : Step → Step → Prop where
  | written {out other : Output} : other.word = out.word → Worded (.written out) (.written other)
  | expansion (utility) (place : Place) (node) :
      Worded (.expansion utility place node) (.expansion utility place.word node)
  | blocks (place : Place) : Worded (.blocks place) (.blocks place.word)

theorem Output.word_declare (out : Output) (place : Place) (property : String)
    (values : List String) :
    (out.word.declare place.word property values).word =
      (out.declare place property values).word := by
  simp [word, declare, Place.word, FlatRule.word, Function.comp_def]

theorem Output.word_state (out : Output) (property : String) (values : List String) :
    (out.word.state property values).word = (out.state property values).word := by
  simp [word, state, FlatRule.word, Function.comp_def, List.mapIdx_eq_zipIdx_map]

theorem declare_word (vocabulary : Vocabulary) (place : Place) (key : String) (value : StyleValue)
    (out : Output) :
    Agree Step.Worded (declare vocabulary place key value out)
      (declare vocabulary place.word key value out.word) := by
  have written (property : String) (values : List String) :
      Step.Worded (.written (out.declare place property values))
        (.written (out.word.declare place.word property values)) :=
    .written (out.word_declare place property values)
  unfold Place.word declare
  split
  · exact .error _
  · split
    · exact .error _
    · exact (Agree.same _).bind fun same => .ok (same ▸ written _ _)

theorem step_word (vocabulary : Vocabulary) (mode : FlattenMode) (place : Place) (key : String)
    (value : StyleValue) (out : Output) :
    Agree Step.Worded (step vocabulary mode place key value out)
      (step vocabulary mode place.word key value out.word) := by
  have declared := declare_word vocabulary place key value out
  have stated (values : List String) :
      Step.Worded (.written (out.state key values)) (.written (out.word.state key values)) :=
    .written (out.word_state key values)
  have unwritten : Step.Worded (.written out) (.written out.word) :=
    .written (by simp [Output.word, FlatRule.word])
  unfold Place.word step
  split
  · exact .error _
  · cases KeyKind.of vocabulary.utilities key value with
    | property | localToken => exact declared
    | utility =>
      dsimp only
      split
      · exact .ok unwritten
      · split
        · exact .ok (.expansion key place _)
        · exact .error _
    | pseudoSelector | descendantSelector =>
      dsimp only
      split
      · exact .error _
      · exact .ok (.blocks { place with selectors := _, bare := false })
    | atRule => exact .ok (.blocks { place with atRules := _, bare := _ })
    | atStatement =>
      dsimp only
      split
      · exact .error _
      · exact (Agree.same _).bind fun same => .ok (same ▸ stated _)

namespace Stack

variable (vocabulary mode)

/-- Some turns lead from the first stack to the second. -/
def Leads (first second : Stack) : Prop := ∃ turns, first.run vocabulary mode turns = .goesOn second

/-- The walk ends after some turns. -/
def Ends (stack : Stack) (result : Except StyleError (List FlatRule)) : Prop :=
  ∃ turns, stack.run vocabulary mode turns = .ended result

variable {vocabulary mode} {first second third : Stack} {result : Except StyleError (List FlatRule)}

theorem run_add {turns : Nat} (reached : first.run vocabulary mode turns = .goesOn second)
    (more : Nat) :
    first.run vocabulary mode (turns + more) = second.run vocabulary mode more := by
  induction turns generalizing first with
  | zero =>
    obtain rfl := Turn.goesOn.inj reached
    rw [Nat.zero_add]
  | succ turns ih =>
    rw [run] at reached
    rw [Nat.succ_add, run]
    cases taken : first.turn vocabulary mode with
    | goesOn next =>
      simp only [taken] at reached ⊢
      exact ih reached
    | ended result => simp [taken] at reached

theorem Leads.trans (left : first.Leads vocabulary mode second)
    (right : second.Leads vocabulary mode third) :
    first.Leads vocabulary mode third := by
  obtain ⟨turns, reached⟩ := left
  obtain ⟨more, reached_more⟩ := right
  exact ⟨turns + more, (run_add reached more).trans reached_more⟩

theorem Leads.ends (left : first.Leads vocabulary mode second)
    (right : second.Ends vocabulary mode result) :
    first.Ends vocabulary mode result := by
  obtain ⟨turns, reached⟩ := left
  obtain ⟨more, ended⟩ := right
  exact ⟨turns + more, (run_add reached more).trans ended⟩

theorem leads_of_turn (taken : first.turn vocabulary mode = .goesOn second) :
    first.Leads vocabulary mode second := ⟨1, by simp only [run, taken]⟩

theorem ends_of_turn (taken : first.turn vocabulary mode = .ended result) :
    first.Ends vocabulary mode result := ⟨1, by simp only [run, taken]⟩

/-- A walk that ends has a last turn. -/
theorem Ends.last (ended : first.Ends vocabulary mode result) :
    ∃ last, first.Leads vocabulary mode last ∧ last.turn vocabulary mode = .ended result := by
  obtain ⟨turns, ended⟩ := ended
  induction turns generalizing first with
  | zero => cases ended
  | succ turns ih =>
    rw [run] at ended
    cases taken : first.turn vocabulary mode with
    | goesOn next =>
      simp only [taken] at ended
      obtain ⟨last, leads, ends⟩ := ih ended
      exact ⟨last, (leads_of_turn taken).trans leads, ends⟩
    | ended other =>
      simp only [taken, Turn.ended.injEq] at ended
      exact ⟨first, ⟨0, rfl⟩, ended ▸ taken⟩

theorem Ends.unique {other : Except StyleError (List FlatRule)}
    (left : first.Ends vocabulary mode result) (right : first.Ends vocabulary mode other) :
    result = other := by
  obtain ⟨turns, ended⟩ := left
  obtain ⟨more, ended_other⟩ := right
  induction turns generalizing first more with
  | zero => cases ended
  | succ turns ih =>
    cases more with
    | zero => cases ended_other
    | succ more =>
      rw [run] at ended ended_other
      cases taken : first.turn vocabulary mode with
      | goesOn next =>
        simp only [taken] at ended ended_other
        exact ih ended more ended_other
      | ended last =>
        simp only [taken, Turn.ended.injEq] at ended ended_other
        exact ended.symm.trans ended_other

/-- The stack with some frames and what the recursion has written. -/
def holding (frames : List Frame) (out : Output) : Stack :=
  ⟨frames, out.rules.map FlatRule.word, .ofNat out.nextOrigin, .ofNat out.nextBlock⟩

theorem write_of_word {out other : Output} (same : other.word = out.word) (stack : Stack) :
    stack.write other = holding stack.frames out := by
  obtain ⟨rules, origin, block⟩ := Output.mk.inj same
  simp only [write, holding, rules, UInt32.toNat_inj.mp origin, UInt32.toNat_inj.mp block]

variable (vocabulary mode)

/-- The stack goes on with the frames below when the recursion has a result, and ends when it has
none. -/
def Arrives (stack : Stack) (below : List Frame) : Except StyleError Output → Prop
  | .ok out => stack.Leads vocabulary mode (holding below out)
  | .error error => stack.Ends vocabulary mode (.error error)

variable {vocabulary mode} {below frames : List Frame}

theorem Leads.arrives {result : Except StyleError Output}
    (left : first.Leads vocabulary mode second)
    (right : second.Arrives vocabulary mode below result) :
    first.Arrives vocabulary mode below result := by
  cases result with
  | ok out => exact Leads.trans left right
  | error error => exact Leads.ends left right

theorem Arrives.bind {own : Except StyleError Output} {next : Output → Except StyleError Output}
    (left : first.Arrives vocabulary mode frames own)
    (right : ∀ out, (holding frames out).Arrives vocabulary mode below (next out)) :
    first.Arrives vocabulary mode below (own >>= next) := by
  cases own with
  | ok out => exact Leads.arrives left (right out)
  | error error => exact left

end Stack

open Stack

/-- An expander whose expansions the stack walks, in frames that lie in one expansion more. -/
def Simulates (vocabulary : Vocabulary) (mode : FlattenMode) (depth : Nat) (expand : Expander) :
    Prop :=
  ∀ utility place node out below,
    if depth + 1 > Utility.depthLimit then
      expand utility place node out = .error (.utilityCycle utility Utility.depthLimit)
    else (holding (.enter place (depth + 1) node :: below) out).Arrives vocabulary mode below
      (expand utility place node out)

/-- The frames of blocks with numbers from `number` on. -/
def numbered (place : Place) (depth number : Nat) (nodes : List StyleNode) : List Frame :=
  nodes.mapIdx fun index node => .enter { place with block := number + index } depth node

theorem numbered_cons (place : Place) (depth number : Nat) (node : StyleNode)
    (rest : List StyleNode) :
    numbered place depth number (node :: rest) =
      .enter { place with block := number } depth node ::
        numbered place depth (number + 1) rest := by
  simp [numbered, List.mapIdx_cons, Nat.add_assoc, Nat.add_comm 1]

theorem push_holding (frames : List Frame) (out : Output) (place : Place) (depth : Nat)
    (nodes : List StyleNode) :
    (holding frames out).push place.word depth nodes =
      holding (numbered place depth out.nextBlock nodes ++ frames)
        { out with nextBlock := out.nextBlock + nodes.length } := by
  simp [push, holding, numbered, Frame.enter, Place.word, UInt32.ofNat_add]

theorem Frame.enter_word (place : Place) (depth : Nat) (node : StyleNode) :
    enter place.word depth node = enter place depth node := by
  simp only [enter, Place.word, UInt32.ofNat_toNat]

/-- The frame of a block, in front of the entries that are left. -/
def Frame.past (place : Place) (depth : Nat) (front rest : StyleNode) : Frame :=
  { Frame.enter place depth (front ++ rest) with cursor := front.length }

theorem Frame.past_cons (place : Place) (depth : Nat) (front : StyleNode) (key : String)
    (value : StyleValue) (rest : StyleNode) :
    { Frame.past place depth front ((key, value) :: rest) with cursor := front.length + 1 } =
      Frame.past place depth (front ++ [(key, value)]) rest := by
  simp [past, enter]

/-- The turn at the next entry of a block is the entry's step. -/
theorem turn_past (place : Place) (depth : Nat) (front : StyleNode) (key : String)
    (value : StyleValue) (rest : StyleNode) (below : List Frame) (out : Output) :
    (holding (.past place depth front ((key, value) :: rest) :: below) out).turn vocabulary mode =
      let inner := { place with path := keyPath place.path key }
      let frames := .past place depth (front ++ [(key, value)]) rest :: below
      match step vocabulary mode inner.word key value out.word with
      | .error fault => .ended (.error (.invalid inner.path fault))
      | .ok (.written next) => .goesOn ((holding frames out).write next)
      | .ok (.expansion utility nested node) =>
        if depth + 1 > Utility.depthLimit then .ended
          (.error (.utilityCycle utility Utility.depthLimit))
        else .goesOn (holding (.enter nested (depth + 1) node :: frames) out)
      | .ok (.blocks nested) => .goesOn ((holding frames out).push nested depth value.blocks) := by
  have next : (Frame.past place depth front ((key, value) :: rest)).node[
      (Frame.past place depth front ((key, value) :: rest)).cursor]? = some (key, value) := by
    simp [Frame.past, Frame.enter]
  have moved := Frame.past_cons place depth front key value rest
  simp only [turn, holding, next, ← moved]
  rfl

theorem length_filter_isNode (items : List StyleValue) :
    (items.filter StyleValue.isNode).length = (StyleValue.list items).blocks.length := by
  induction items with
  | nil => rfl
  | cons item rest ih =>
    simp only [StyleValue.blocks, List.filter_cons, List.filterMap_cons] at ih ⊢
    cases item <;> simp [StyleValue.isNode, StyleValue.node?, ih]

variable {depth : Nat} {expand : Expander}

mutual

/-- The frame of a block is walked until it is taken away. -/
theorem entries_arrives (simulates : Simulates vocabulary mode depth expand)
    (items : List (String × StyleValue)) (place : Place) (front : StyleNode) (below : List Frame)
    (out : Output) :
    (holding (.past place depth front items :: below) out).Arrives vocabulary mode below
      (entries vocabulary mode expand place items out) := by
  match items with
  | [] =>
    rw [entries]
    have read_out :
        (Frame.past place depth front []).node[(Frame.past place depth front []).cursor]? =
          none := by
      simp [Frame.past, Frame.enter]
    exact leads_of_turn (by simp only [turn, holding, read_out])
  | (key, value) :: rest =>
    rw [entries]
    exact (entry_arrives simulates key value place front rest below out).bind fun next =>
      entries_arrives simulates rest place (front ++ [(key, value)]) below next

/-- After the turn of an entry, the frames that it puts on top are walked until its block goes
on. -/
theorem entry_arrives (simulates : Simulates vocabulary mode depth expand) (key : String)
    (value : StyleValue) (place : Place) (front rest : StyleNode) (below : List Frame)
    (out : Output) :
    (holding (.past place depth front ((key, value) :: rest) :: below) out).Arrives vocabulary mode
      (.past place depth (front ++ [(key, value)]) rest :: below)
      (entry vocabulary mode expand
        { place with path := keyPath place.path key } key value out) := by
  have taken := @turn_past vocabulary mode place depth front key value rest below out
  have stepped :=
    step_word vocabulary mode { place with path := keyPath place.path key } key value out
  rw [entry]
  dsimp only at taken
  generalize step vocabulary mode { place with path := keyPath place.path key } key value out = own
    at stepped ⊢
  generalize step vocabulary mode
    (Place.word { place with path := keyPath place.path key }) key value
    out.word = worded at stepped taken
  cases stepped with
  | error fault => exact ends_of_turn taken
  | ok alike =>
    cases alike with
    | written same =>
      exact leads_of_turn (taken.trans (congrArg Turn.goesOn (write_of_word same _)))
    | expansion utility nested node =>
      simp only [Frame.enter_word] at taken
      have walked := simulates utility nested node out
        (.past place depth (front ++ [(key, value)]) rest :: below)
      by_cases deep : depth + 1 > Utility.depthLimit
      · rw [if_pos deep] at walked
        simp only [walked]
        exact ends_of_turn (taken.trans (if_pos deep))
      · rw [if_neg deep] at walked
        exact (leads_of_turn (taken.trans (if_neg deep))).arrives walked
    | blocks nested =>
      apply (leads_of_turn (taken.trans (congrArg Turn.goesOn (push_holding _ _ _ _ _)))).arrives
      match value with
      | .node block =>
        exact entries_arrives simulates block { nested with block := out.nextBlock } [] _ _
      | .list items =>
        dsimp only
        rw [length_filter_isNode]
        exact blocks_arrives simulates items nested _ _ _
      | .text _ => exact ⟨0, rfl⟩
      | .number _ => exact ⟨0, rfl⟩

/-- The frames of blocks are walked one after the other. -/
theorem blocks_arrives (simulates : Simulates vocabulary mode depth expand)
    (items : List StyleValue) (place : Place) (number : Nat) (below : List Frame) (out : Output) :
    (holding (numbered place depth number (items.filterMap StyleValue.node?) ++ below) out).Arrives
      vocabulary mode below (blocks vocabulary mode expand place number items out) := by
  match items with
  | [] =>
    rw [blocks]
    exact ⟨0, rfl⟩
  | .node block :: rest =>
    rw [blocks]
    have first : (StyleValue.node block :: rest).filterMap StyleValue.node? =
        block :: rest.filterMap StyleValue.node? := rfl
    rw [first, numbered_cons]
    exact (entries_arrives simulates block { place with block := number } [] _ out).bind fun next =>
      blocks_arrives simulates rest place (number + 1) below next
  | .list _ :: rest =>
    rw [blocks_cons_of_not_node rfl]
    exact blocks_arrives simulates rest place number below out
  | .text _ :: rest =>
    rw [blocks_cons_of_not_node rfl]
    exact blocks_arrives simulates rest place number below out
  | .number _ :: rest =>
    rw [blocks_cons_of_not_node rfl]
    exact blocks_arrives simulates rest place number below out

end

theorem simulates_expansion (remaining : Nat) {depth : Nat}
    (left : remaining + depth = Utility.depthLimit) :
    Simulates vocabulary mode depth (expansion vocabulary mode remaining) := by
  induction remaining generalizing depth with
  | zero =>
    intro utility place node out below
    rw [if_pos (by omega)]
    rfl
  | succ remaining ih =>
    intro utility place node out below
    rw [if_neg (by omega)]
    exact entries_arrives (ih (by omega)) node place [] below out

namespace Stack

/-- The walk is at a key whose expansion would be one too many. -/
def MeetsLimit (vocabulary : Vocabulary) (key : String) (stack : Stack) : Prop :=
  ∃ frame below value utility, stack.frames = frame :: below ∧ Utility.depthLimit ≤ frame.depth ∧
    frame.node[frame.cursor]? = some (key, value) ∧ Text.allBlank key = false ∧
    KeyKind.of vocabulary.utilities key value = .utility ∧
    vocabulary.utilities.get? key = some utility ∧ utility.accepts value = true

theorem turn_of_meetsLimit {stack : Stack} {key : String}
    (meets : stack.MeetsLimit vocabulary key) :
    stack.turn vocabulary mode = .ended (.error (.utilityCycle key Utility.depthLimit)) := by
  obtain ⟨frame, below, value, utility, frames, deep, next, shown, kind, known, accepts⟩ := meets
  have limit : frame.depth + 1 > Utility.depthLimit := Nat.lt_succ_of_le deep
  simp [turn, frames, next, step, shown, kind, known, accepts, limit]

theorem step_eq_expansion {place inner : Place} {key used : String} {value : StyleValue}
    {out : Output} {node : StyleNode}
    (stepped : step vocabulary mode place key value out = .ok (.expansion used inner node)) :
    used = key ∧ Text.allBlank key = false ∧ KeyKind.of vocabulary.utilities key value = .utility ∧
      ∃ utility, vocabulary.utilities.get? key = some utility ∧ utility.accepts value = true := by
  have not_declared : declare vocabulary place key value out ≠ .ok
      (.expansion used inner node) := by
    intro declared
    unfold declare at declared
    split at declared
    · cases declared
    · split at declared
      · cases declared
      · obtain ⟨values, -, last⟩ := bind_eq_ok.mp declared
        cases last
  unfold step at stepped
  split at stepped
  · cases stepped
  · next shown =>
    cases kind : KeyKind.of vocabulary.utilities key value with
    | property | localToken =>
      simp only [kind] at stepped
      exact absurd stepped not_declared
    | utility =>
      simp only [kind] at stepped
      split at stepped
      · cases stepped
      · next utility known =>
        split at stepped
        · next accepts =>
          cases stepped
          exact ⟨rfl, by simpa using shown, rfl, utility, known, accepts⟩
        · cases stepped
    | pseudoSelector | descendantSelector =>
      simp only [kind] at stepped
      split at stepped <;> cases stepped
    | atRule =>
      simp only [kind] at stepped
      cases stepped
    | atStatement =>
      simp only [kind] at stepped
      split at stepped
      · cases stepped
      · obtain ⟨values, -, last⟩ := bind_eq_ok.mp stepped
        cases last

theorem meetsLimit_of_turn {stack : Stack} {key : String} {depth : Nat}
    (taken : stack.turn vocabulary mode = .ended (.error (.utilityCycle key depth))) :
    depth = Utility.depthLimit ∧ stack.MeetsLimit vocabulary key := by
  unfold turn at taken
  split at taken
  · cases taken
  · next frame below frames =>
    split at taken
    · cases taken
    · next used value next =>
      dsimp only at taken
      cases stepped : step vocabulary mode (frame.place used) used value stack.output with
      | error fault => simp [stepped] at taken
      | ok own =>
        simp only [stepped] at taken
        cases own with
        | written out => cases taken
        | blocks place => cases taken
        | expansion utility place node =>
          dsimp only at taken
          split at taken
          · next deep =>
            cases taken
            obtain ⟨rfl, shown, kind, utility, known, accepts⟩ := step_eq_expansion stepped
            exact ⟨rfl, frame, below, value, utility, frames, Nat.le_of_lt_succ deep, next,
              shown, kind, known, accepts⟩
          · cases taken

/-- The walk from the root ends as the recursion does. -/
theorem start_ends (vocabulary : Vocabulary) (mode : FlattenMode) (node : StyleNode) :
    (start mode node).Ends vocabulary mode
      ((flatten vocabulary mode node).map (List.map FlatRule.word)) := by
  have arrives : (start mode node).Arrives vocabulary mode [] (walk vocabulary mode node .start) :=
    entries_arrives (simulates_expansion Utility.depthLimit (Nat.add_zero _)) node (rootPlace mode)
      [] [] .start
  have flat : flatten vocabulary mode node = (walk vocabulary mode node .start).map Output.rules :=
    rfl
  rw [flat]
  cases walked : walk vocabulary mode node .start with
  | error error =>
    rw [walked] at arrives
    exact arrives
  | ok out =>
    rw [walked] at arrives
    exact Leads.ends arrives (ends_of_turn rfl)

end Stack

end Flatten

open Flatten

/-- Flattening on a stack of frames ends, with the rules or the error of the recursion; the numbers
of entries and blocks are the same as far as they fit into 32 bits. It ends with the error of a
utility that uses itself exactly if it comes to a key whose expansion would lie in too many
others. -/
theorem flatten_on_frames (vocabulary : Vocabulary) (mode : FlattenMode) (node : StyleNode) :
    (Stack.start mode node).Ends vocabulary mode
        ((flatten vocabulary mode node).map (List.map FlatRule.word)) ∧
      ((∀ rules, flatten vocabulary mode node = .ok rules →
          ∀ rule ∈ rules, rule.origin < UInt32.size ∧ rule.block < UInt32.size) →
        (Stack.start mode node).Ends vocabulary mode (flatten vocabulary mode node)) ∧
      ∀ key depth, flatten vocabulary mode node = .error (.utilityCycle key depth) ↔
        depth = Utility.depthLimit ∧
          ∃ stack, (Stack.start mode node).Leads vocabulary mode stack ∧
            stack.MeetsLimit vocabulary key := by
  have ended := Stack.start_ends vocabulary mode node
  refine ⟨ended, ?_, ?_⟩
  · intro small
    cases flat : flatten vocabulary mode node with
    | error error => rwa [flat] at ended
    | ok rules =>
      have same : rules.map FlatRule.word = rules := by
        conv_rhs => rw [← List.map_id rules]
        exact List.map_congr_left fun rule member =>
          FlatRule.word_of_small (small rules flat rule member).1 (small rules flat rule member).2
      rw [flat] at ended
      exact same ▸ ended
  · intro key depth
    constructor
    · intro failed
      rw [failed] at ended
      obtain ⟨stack, leads, taken⟩ := ended.last
      obtain ⟨limit, meets⟩ := Stack.meetsLimit_of_turn taken
      exact ⟨limit, stack, leads, meets⟩
    · rintro ⟨rfl, stack, leads, meets⟩
      have failed := leads.ends (Stack.ends_of_turn (Stack.turn_of_meetsLimit meets))
      have same := ended.unique failed
      cases flat : flatten vocabulary mode node with
      | error error => simpa [flat, Except.map] using same
      | ok rules => simp [flat, Except.map] at same

/-- A utility in the first of two blocks, and a utility that uses itself. -/
theorem flatten_on_frames_of_list :
    let size : Utility := .template [("width", .text "--value()"), ("height", .text "--value()")]
    let loop : Utility := .template [("&:hover", .node [("loop", .text "--value()")])]
    let vocabulary : Vocabulary :=
      ⟨⟨⟨"", "", ":root", .empty, []⟩, .empty, ""⟩, .ofList [("size", size), ("loop", loop)], []⟩
    let node : StyleNode := [("@media print", .list [.node [("size", .text "1px")],
      .node [("color", .text "red")]]), ("top", .text "0")]
    let rules : List FlatRule := [
      ⟨["@media print"], "&", "width", "1px", 0, 1⟩, ⟨["@media print"], "&", "height", "1px", 1, 1⟩,
      ⟨["@media print"], "&", "color", "red", 2, 2⟩, ⟨[], "&", "top", "0", 3, 0⟩]
    let cycle : StyleNode := [("loop", .text "1")]
    flatten vocabulary .scoped node = .ok rules ∧
      (∀ rule ∈ rules, rule.origin < UInt32.size ∧ rule.block < UInt32.size) ∧
      (Stack.start .scoped node).Ends vocabulary .scoped (.ok rules) ∧
      flatten vocabulary .scoped cycle = .error (.utilityCycle "loop" 16) ∧
      ∃ stack, (Stack.start .scoped cycle).Leads vocabulary .scoped stack ∧
        stack.MeetsLimit vocabulary "loop" := by
  intro size loop vocabulary node rules cycle
  have flat : flatten vocabulary .scoped node = .ok rules := by decide +kernel
  have small : ∀ rule ∈ rules, rule.origin < UInt32.size ∧ rule.block < UInt32.size := by decide
  have failed : flatten vocabulary .scoped cycle = .error (.utilityCycle "loop" 16) := by
    decide +kernel
  have ended := (flatten_on_frames vocabulary .scoped node).2.1 fun found same =>
    Except.ok.inj (flat.symm.trans same) ▸ small
  rw [flat] at ended
  exact ⟨flat, small, ended, failed,
    (((flatten_on_frames vocabulary .scoped cycle).2.2 "loop" 16).mp failed).2⟩

end AtomicCss
