import AtomicCss.Proofs.Engine.Emission
import AtomicCss.Proofs.Rule.Collapse
import AtomicCss.Proofs.Rule.Spelling

/-!
The order of the rules of classes.

Rules of one group and rank stand in the order in which their declarations were first emitted, and
the declarations of a style are emitted in the order in which their places are first written. So
neither a later entry for a place nor a later style moves a rule that is there.
-/

namespace AtomicCss

/-- Declarations of one group and rank, whose rules only history tells apart. -/
def Level (breakpoints : Breakpoints) (first second : AtomicDeclaration) : Prop :=
  first.group = second.group ∧ first.rank breakpoints = second.rank breakpoints

theorem Level.symm {breakpoints : Breakpoints} {first second : AtomicDeclaration}
    (level : Level breakpoints first second) : Level breakpoints second first :=
  ⟨level.1.symm, level.2.symm⟩

/-- The rules of classes as a sheet has them that got them in the order of a list. -/
def cascaded (breakpoints : Breakpoints) (rules : List AtomicRule) : List AtomicRule :=
  rules.mergeSort fun first second =>
    (first.inSheet breakpoints).before (second.inSheet breakpoints)

section Cascaded

variable {breakpoints : Breakpoints} {rules : List AtomicRule} {first second : AtomicDeclaration}

theorem map_cascaded (breakpoints : Breakpoints) (rules : List AtomicRule) :
    (cascaded breakpoints rules).map (AtomicRule.inSheet breakpoints) =
      (rules.map (AtomicRule.inSheet breakpoints)).mergeSort SheetRule.before :=
  List.map_mergeSort fun _ _ _ _ => rfl

theorem declarations_cascaded (breakpoints : Breakpoints) (rules : List AtomicRule) :
    ((cascaded breakpoints rules).map (·.declaration)).Perm (rules.map (·.declaration)) :=
  (List.mergeSort_perm rules _).map _

theorem pair_sublist_cascaded (level : Level breakpoints first second)
    (placed : [first, second].Sublist (rules.map (·.declaration))) :
    [first, second].Sublist ((cascaded breakpoints rules).map (·.declaration)) := by
  obtain ⟨pair, within, same⟩ := List.sublist_map_iff.mp placed
  obtain ⟨before, rest, rfl, rfl, same_rest⟩ := List.map_eq_cons_iff.mp same.symm
  obtain ⟨behind, none_left, rfl, rfl, nothing⟩ := List.map_eq_cons_iff.mp same_rest
  obtain rfl := List.map_eq_nil_iff.mp nothing
  have may_stand : (before.inSheet breakpoints).before (behind.inSheet breakpoints) = true :=
    SheetRule.before_iff.mpr (.inr ⟨congrArg SheetGroup.order level.1, level.2.le⟩)
  have sorted_pair : [before, behind].Sublist (cascaded breakpoints rules) :=
    List.pair_sublist_mergeSort (fun _ _ _ => SheetRule.before_trans _ _ _)
      (fun _ _ => SheetRule.before_total _ _) may_stand within
  exact sorted_pair.map _

/-- Rules of one level keep their order. -/
theorem pair_sublist_cascaded_iff (distinct : (rules.map (·.declaration)).Nodup)
    (level : Level breakpoints first second) (left : first ∈ rules.map (·.declaration))
    (right : second ∈ rules.map (·.declaration)) (different : first ≠ second) :
    [first, second].Sublist ((cascaded breakpoints rules).map (·.declaration)) ↔
      [first, second].Sublist (rules.map (·.declaration)) :=
  have apart := (declarations_cascaded breakpoints rules).nodup_iff.mpr distinct
  (pair_sublist_iff apart left right different (pair_sublist_cascaded level)
    (pair_sublist_cascaded level.symm)).symm

end Cascaded

namespace Engine

/-- The declarations whose rules stand in the sheet, in the order of the sheet; unless hashes
collide, all that got a class. -/
structure RuleOrder (engine : Engine) (order : List AtomicDeclaration) : Prop where
  distinct : order.Nodup
  rules : List.Forall₂ (fun rule declaration => ∃ (className css : String),
      engine.Has className declaration ∧ css.toList = declaration.spelled className ∧
      rule = ⟨declaration.group, declaration.rank engine.config.breakpoints, css⟩)
    engine.sheet.atomicRules order
  complete : engine.HashesApart → engine.declared ⊆ order

theorem RuleOrder.declared {engine : Engine} {order : List AtomicDeclaration}
    (ruleOrder : engine.RuleOrder order) : order ⊆ engine.declared := by
  intro declaration member
  obtain ⟨rule, -, className, _, has, -⟩ := exists_left_of_forall₂ ruleOrder.rules member
  exact mem_declared.mpr ⟨className, has⟩

@[simp] theorem length_declared (engine : Engine) : engine.declared.length = engine.index.size := by
  simp [declared, AtomicIndex.size]

theorem Filed.nodup_declared {engine : Engine} (filed : engine.Filed) : engine.declared.Nodup := by
  rw [declared, List.map_reverse, List.nodup_reverse]
  exact filed.probed.declarations

theorem Appends.declared {first second : Engine} (appends : Appends first second) :
    ∃ fresh, second.declared = first.declared ++ fresh := by
  obtain ⟨added, -, rules, -⟩ := appends
  exact ⟨added.reverse.map (·.declaration), by simp [Engine.declared, rules]⟩

/-- The rules that were added to a sheet without rules of classes stand in the order in which their
declarations were emitted. -/
theorem Appends.ruleOrder {first second : Engine} (appends : Appends first second)
    (same : second.config = first.config) (none_yet : first.sheet.atomicRules = [])
    (filed : second.Filed) (full : second.Full) :
    ∃ order, second.RuleOrder order ∧
      (∀ declaration ∈ order, declaration ∉ first.declared) ∧
      ∀ left ∈ order, ∀ right ∈ order, left ≠ right → Level first.config.breakpoints left right →
        ([left, right].Sublist order ↔ [left, right].Sublist second.declared) := by
  have distinct := filed.nodup_declared
  obtain ⟨added, kept, rules, within, stable⟩ := appends
  rw [none_yet, List.nil_append] at stable
  have sheet := stable.unique (SheetRule.stableOrder_mergeSort _)
  rw [← map_cascaded] at sheet
  have declared_eq : second.declared = first.declared ++ added.reverse.map (·.declaration) := by
    simp [Engine.declared, rules]
  have kept_fresh : (kept.map (·.declaration)).Sublist (added.reverse.map (·.declaration)) :=
    within.map _
  have kept_declared : (kept.map (·.declaration)).Sublist second.declared :=
    declared_eq ▸ kept_fresh.trans (List.sublist_append_right _ _)
  have kept_distinct := distinct.sublist kept_declared
  have perm := declarations_cascaded first.config.breakpoints kept
  have order_distinct := perm.nodup_iff.mpr kept_distinct
  have listed : List.Forall₂ (fun rule declaration => ∃ (className css : String),
      second.Has className declaration ∧ css.toList = declaration.spelled className ∧
      rule = ⟨declaration.group, declaration.rank second.config.breakpoints, css⟩)
      second.sheet.atomicRules ((cascaded first.config.breakpoints kept).map (·.declaration)) := by
    rw [sheet, List.forall₂_map_left_iff, List.forall₂_map_right_iff, List.forall₂_same]
    intro rule member
    have inside : rule ∈ second.index.rules := by
      rw [rules]
      have placed : rule ∈ kept := List.mem_mergeSort.mp member
      exact List.mem_append_left _ (List.mem_reverse.mp (within.subset placed))
    refine ⟨rule.className, rule.css, ⟨rule, inside, rfl, rfl⟩, ?_, ?_⟩
    · rw [filed.css rule inside, AtomicDeclaration.toList_ruleText]
    · rw [same]
      rfl
  refine ⟨_, ⟨order_distinct, listed, ?_⟩, ?_, ?_⟩
  · intro apart
    -- A part without repetitions that is as long as the whole is the whole.
    have part :=
      List.Nodup.subperm order_distinct (List.Subset.trans perm.subset kept_declared.subset)
    have whole := part.perm_of_length_le (listed.length_eq ▸ length_declared second ▸ full apart)
    exact whole.symm.subset
  · intro declaration member old
    have fresh := kept_fresh.subset (perm.mem_iff.mp member)
    rw [declared_eq] at distinct
    exact (List.nodup_append.mp distinct).2.2 declaration old declaration fresh rfl
  · intro left inside right behind different level
    have left_kept := perm.mem_iff.mp inside
    have right_kept := perm.mem_iff.mp behind
    rw [pair_sublist_cascaded_iff kept_distinct level left_kept right_kept different]
    exact pair_sublist_part distinct kept_declared left_kept right_kept different

/-- The replica, if there is one, makes no calls. -/
def Quiet (engine : Engine) : Prop := ∀ replica, engine.replica = some replica → replica.script = []

section Asking

variable {engine after : Engine} {style : CompiledStyle} {selection : VariantSelection}
  {override : Option StyleNode} {text : String} {own : List AtomicDeclaration}

theorem replica_emitAll (engine : Engine) (declarations : List AtomicDeclaration)
    (classes : List String) : (engine.emitAll declarations classes).2.replica = engine.replica := by
  induction declarations generalizing engine classes with
  | nil => rfl
  | cons declaration rest ih =>
    have own : (engine.emit declaration).2.replica = engine.replica := by
      unfold emit
      split <;> rfl
    exact (ih (engine.emit declaration).2 _).trans own

/-- The second engine differs in what was delivered and is queued at most. -/
def Delivers (first second : Engine) : Prop :=
  ∃ replica pending, second = { first with sheet := { first.sheet with pending }, replica }

theorem quiet_deliver (engine : Engine) (delivery : Delivery) :
    (engine.deliver delivery []).Quiet := by
  intro replica found
  obtain ⟨earlier, -, rfl⟩ := Option.map_eq_some_iff.mp found
  rfl

/-- Draining for a replica that makes no calls only delivers. -/
theorem drain_of_quiet (quiet : engine.Quiet) :
    engine.drain.Quiet ∧ Delivers engine engine.drain := by
  have composes : Composes Delivers := by
    refine ⟨fun engine => ⟨_, _, rfl⟩, ?_⟩
    rintro _ _ _ ⟨_, _, rfl⟩ ⟨replica, pending, rfl⟩
    exact ⟨replica, pending, rfl⟩
  have changes : HoldsAcrossReplica Delivers := fun _ replica pending => ⟨replica, pending, rfl⟩
  have stays : Composes fun first second : Engine => first.Quiet → second.Quiet :=
    ⟨fun _ => id, fun earlier later => later ∘ earlier⟩
  unfold drain
  split
  · next replica found =>
    rw [quiet replica found, drainWith]
    split
    · next queue pending =>
      refine ⟨?_, related_deliverAll composes changes.delivery pending⟩
      exact stays.foldl (fun delivery _ engine _ => quiet_deliver engine delivery) _ quiet
    · exact ⟨quiet, composes.refl engine⟩
  · exact ⟨quiet, composes.refl engine⟩

theorem index_drain (quiet : engine.Quiet) : engine.drain.index = engine.index := by
  obtain ⟨-, replica, pending, same⟩ := drain_of_quiet quiet
  rw [same]

/-- Emitting declarations adds those without a class, in their order; what the replica calls
meanwhile comes after them. -/
theorem declared_settled (marked : ∀ declaration ∈ own, declaration.Marked) (distinct : own.Nodup)
    (sorted : engine.sheet.Sorted) (tidy : engine.Tidy) (fits : (engine.settled drain own).Fits) :
    ∃ called, (engine.settled drain own).declared =
        engine.declared ++ own.filter (· ∉ engine.declared) ++ called ∧
      (engine.Quiet → called = []) := by
  have emitted_sorted := (advances_emitAll marked engine [] sorted).2.1
  have appends := ((continues_drain (engine.emitAll own []).2).2 emitted_sorted).appends
  have emitted := declared_emitAll marked distinct sorted tidy (appends.fits fits)
  obtain ⟨called, drained⟩ := appends.declared
  refine ⟨called, drained.trans (by rw [emitted]), ?_⟩
  intro quiet
  have still : (engine.emitAll own []).2.Quiet := by
    rw [Quiet, replica_emitAll]
    exact quiet
  rw [declared, index_drain still, ← declared] at drained
  exact List.self_eq_append_right.mp drained

section Answered

variable (sorted : engine.sheet.Sorted) (tidy : engine.Tidy)
  (found : engine.declarations style.definition
    (style.definition.normalize selection) override = .ok own)
  (answered : engine.className drain style selection override = (.ok text, after))
  (fits : after.Fits)

include sorted tidy found answered fits

theorem declared_className :
    (after = engine ∧ engine.remembered? style (style.definition.normalize selection).key ≠ none) ∨
      ∃ called, after.declared = engine.declared ++ own.filter (· ∉ engine.declared) ++ called ∧
        (engine.Quiet → called = []) := by
  obtain ⟨marked, distinct⟩ := marked_declarations found
  have asked := engine.asked_className drain style selection override
  rw [answered] at asked
  cases asked with
  | remembered noted => exact .inl ⟨rfl, by simp [noted]⟩
  | overridden again =>
    obtain rfl := Except.ok.inj (found.symm.trans again)
    exact .inr (declared_settled marked distinct sorted tidy fits)
  | noted _ again =>
    obtain rfl := Except.ok.inj (found.symm.trans again)
    exact .inr (declared_settled marked distinct sorted tidy fits)

/-- Where no class was remembered, all declarations that were asked for come to have classes. -/
theorem own_declared
    (new : engine.remembered? style (style.definition.normalize selection).key = none) :
    own ⊆ after.declared := by
  intro declaration member
  rcases declared_className sorted tidy found answered fits with ⟨-, noted⟩ | ⟨called, declared, -⟩
  · exact absurd new noted
  · rw [declared]
    exact List.mem_append_left _ (mem_append_new member)

/-- Declarations that a style emits in one order come to be in that order, unless the second one was
there before the first. -/
theorem pair_declared_className (distinct : after.declared.Nodup) {first second : AtomicDeclaration}
    (written : [first, second].Sublist own) (right : second ∈ after.declared) :
    [first, second].Sublist after.declared ↔
      second ∉ engine.declared ∨ [first, second].Sublist engine.declared := by
  rcases declared_className sorted tidy found answered fits with ⟨rfl, -⟩ | ⟨called, declared, -⟩
  · simp [right]
  · have emitted : second ∈ engine.declared ++ own.filter (· ∉ engine.declared) :=
      mem_append_new (mem_of_pair_sublist written).2
    rw [declared] at distinct ⊢
    rw [pair_sublist_front distinct emitted]
    exact pair_sublist_append_new written

end Answered

end Asking

/-- The rules of an engine that a configuration led to stand in the order in which their
declarations were emitted. -/
theorem Continues.ruleOrder {config : Config} {replicated : Bool} {engine : Engine}
    (continues : Continues (bare config replicated) engine) (fits : engine.Fits) :
    engine.declared.Nodup ∧ ∃ order, engine.RuleOrder order ∧
      ∀ left ∈ order, ∀ right ∈ order, left ≠ right → Level config.breakpoints left right →
        ([left, right].Sublist order ↔ [left, right].Sublist engine.declared) := by
  obtain ⟨grows, -, appends, tidy, -, full⟩ := continues.reached
  have filed := tidy fits
  have none_yet : (bare config replicated).sheet.atomicRules = [] := by
    cases replicated <;> rfl
  obtain ⟨order, ruleOrder, -, same⟩ := appends.ruleOrder grows.config none_yet filed full
  exact ⟨filed.nodup_declared, order, ruleOrder, same⟩

theorem continues_answered {engine after : Engine} {style : CompiledStyle}
    {selection : VariantSelection} {override : Option StyleNode} {text : String}
    (known : engine.style? style.number = some style)
    (answered : engine.className drain style selection override = (.ok text, after)) :
    Continues engine after := by
  have continues := continues_className continues_drain engine selection override known
  rwa [answered] at continues

/-- On a sheet without rules of classes, declarations of one group and rank stand in the order in
which their places are first written, whichever entries their values come from. This is the order of
those entries where nothing wrote the place of the second up to the entry that the values of the
first come from. -/
theorem order_of_document {config : Config} {replicated : Bool} {script : List (List Request)}
    {requests : List Request} {engine after : Engine} {style : CompiledStyle}
    {selection : VariantSelection} {override : Option StyleNode} {text : String} {node : StyleNode}
    {rules : List FlatRule}
    (reached : engine = ((start drain config replicated).withScript script).run requests)
    (known : engine.style? style.number = some style) (none_yet : engine.sheet.atomicRules = [])
    (resolved : style.definition.resolve (style.definition.normalize selection)
      config.breakpoints.names override = .ok node)
    (flat : flatten (config.vocabulary config.defaultTheme) .scoped node = .ok rules)
    (answered : engine.className drain style selection override = (.ok text, after))
    (fits : after.Fits) :
    ∃ order, after.RuleOrder order ∧
      (engine.remembered? style (style.definition.normalize selection).key = none →
        collapse rules ⊆ after.declared) ∧
      ∀ first ∈ collapse rules, ∀ second ∈ collapse rules, first ∈ order → second ∈ order →
        first ≠ second → Level config.breakpoints first second →
          ([first, second].Sublist order ↔
            firstWritten first.place rules < firstWritten second.place rules) ∧
          ∀ origin, Collapse.latest first.place rules = some (first.values, origin) →
            (∀ rule ∈ rules, rule.place = second.place → origin < rule.origin) →
              [first, second].Sublist order := by
  have begun : Continues (bare config replicated) engine :=
    reached ▸ continues_run config replicated script requests
  have step := continues_answered known answered
  obtain ⟨started, sorted, -, tidy, kept, full⟩ := begun.reached
  obtain ⟨grows, -⟩ := step.1 sorted
  obtain ⟨appends, keeps, fills⟩ := step.2 sorted
  have filed := keeps tidy fits
  have found :
      engine.declarations style.definition (style.definition.normalize selection) override =
      .ok (collapse rules) := by
    rw [started.declarations]
    exact bind_eq_ok.mpr ⟨node, resolved, bind_eq_ok.mpr ⟨rules, flat, rfl⟩⟩
  obtain ⟨order, ruleOrder, fresh, in_order⟩ :=
    appends.ruleOrder grows.config none_yet filed (fills kept full)
  rw [started.config] at in_order
  refine ⟨order, ruleOrder, own_declared sorted tidy found answered fits, ?_⟩
  intro first written_first second written_second left right different level
  -- What stands in the sheet was not emitted before, so it is emitted in the order of the style.
  have emitted {first second : AtomicDeclaration} (left : first ∈ order) (right : second ∈ order)
      (different : first ≠ second) (level : Level config.breakpoints first second)
      (written : [first, second].Sublist (collapse rules)) : [first, second].Sublist order := by
    rw [in_order first left second right different level,
      pair_declared_className sorted tidy found answered fits filed.nodup_declared written
        (ruleOrder.declared right)]
    exact .inl (fresh second right)
  have as_written : [first, second].Sublist order ↔
      firstWritten first.place rules < firstWritten second.place rules := by
    rw [← pair_sublist_collapse written_first written_second different]
    exact (pair_sublist_iff ruleOrder.distinct written_first written_second different
      (emitted left right different level) (emitted right left different.symm level.symm)).symm
  refine ⟨as_written, ?_⟩
  intro origin supplied untouched
  exact as_written.mpr (firstWritten_lt_of_latest (rising_flatten flat) supplied
    (exists_rule_of_mem_collapse written_second) untouched)

/-- A shorthand between two entries for one longhand, the first of them a utility: the values of the
longhand come from the last entry, but its rule stands before that of the shorthand. -/
theorem order_of_utility_first :
    let config : Config := ⟨"", .empty, [], .empty,
      .ofList [("indent", .template [("marginLeft", .text "--value()")])]⟩
    let base : StyleNode := [("indent", .text "1px"), ("margin", .text "2px"),
      ("marginLeft", .text "3px")]
    let style : CompiledStyle := ⟨0, base, [], [], []⟩
    let engine := ((start drain config false).withScript []).run [.compile base]
    let longhand : AtomicDeclaration := ⟨[], "&", "margin-left", ["3px"]⟩
    let shorthand : AtomicDeclaration := ⟨[], "&", "margin", ["2px"]⟩
    let rules : List FlatRule :=
      [⟨[], "&", "margin-left", "1px", 0, 0⟩, ⟨[], "&", "margin", "2px", 1, 0⟩,
      ⟨[], "&", "margin-left", "3px", 2, 0⟩]
    let after := (engine.className drain style [] none).2
    engine.style? style.number = some style ∧ engine.sheet.atomicRules = [] ∧
      style.definition.resolve (style.definition.normalize []) config.breakpoints.names
        none = .ok base ∧
      flatten (config.vocabulary config.defaultTheme) .scoped base = .ok rules ∧
      engine.className drain style [] none = (.ok "c-0 c-1", after) ∧
      collapse rules = [longhand, shorthand] ∧ Level config.breakpoints shorthand longhand ∧
      Collapse.latest shorthand.place rules = some (shorthand.values, 1) ∧
      Collapse.latest longhand.place rules = some (longhand.values, 2) ∧
      ∃ order, after.RuleOrder order ∧ shorthand ∈ order ∧ longhand ∈ order ∧
        ¬ [shorthand, longhand].Sublist order := by
  intro config base style engine longhand shorthand rules after
  have known : engine.style? style.number = some style := rfl
  have none_yet : engine.sheet.atomicRules = [] := by decide +kernel
  have resolved : style.definition.resolve (style.definition.normalize []) config.breakpoints.names
      none = .ok base := rfl
  have flat : flatten (config.vocabulary config.defaultTheme) .scoped base = .ok rules := by
    decide +kernel
  have evaluated : (engine.className drain style [] none).1 = .ok "c-0 c-1" ∧
      after.declared = [longhand, shorthand] ∧ (after.hashed.map Hash.content).Nodup := by
    decide +kernel
  obtain ⟨answer, stands⟩ := evaluated
  have level : Level config.breakpoints shorthand longhand := ⟨by decide, by decide⟩
  have written : collapse rules = [longhand, shorthand] := by decide +kernel
  have answered := className_eq answer
  have fits : after.Fits := by
    rw [Fits, ← length_declared, stands.1]
    decide
  obtain ⟨order, ruleOrder, -, in_order⟩ :=
    order_of_document rfl known none_yet resolved flat answered fits
  have inside := stands.1 ▸ ruleOrder.complete (apart_of_nodup stands.2)
  have early := inside (.tail _ (.head _))
  have late := inside (.head _)
  refine ⟨known, none_yet, resolved, flat, answered, written, level, by decide +kernel,
    by decide +kernel, order, ruleOrder, early, late, ?_⟩
  rw [(in_order shorthand (written ▸ .tail _ (.head _)) longhand
    (written ▸ .head _) early late (by decide) level).1]
  decide

/-- The order of rules is not that of the entries that their values come from: the longhand takes
its value from the entry behind the shorthand, but its rule stands first, where a utility wrote
it. -/
theorem later_longhand_stands_first :
    let config : Config := ⟨"", .empty, [], .empty,
      .ofList [("indent", .template [("marginLeft", .text "--value()")])]⟩
    let base : StyleNode := [("indent", .text "1px"), ("margin", .text "2px"),
      ("marginLeft", .text "3px")]
    let style : CompiledStyle := ⟨0, base, [], [], []⟩
    let engine := ((start drain config false).withScript []).run [.compile base]
    let longhand : AtomicDeclaration := ⟨[], "&", "margin-left", ["3px"]⟩
    let shorthand : AtomicDeclaration := ⟨[], "&", "margin", ["2px"]⟩
    let rules : List FlatRule := [⟨[], "&", "margin-left", "1px", 0, 0⟩,
      ⟨[], "&", "margin", "2px", 1, 0⟩, ⟨[], "&", "margin-left", "3px", 2, 0⟩]
    let answered := engine.className drain style [] none
    engine.style? 0 = some style ∧ engine.sheet.rules = [] ∧
      flatten (config.vocabulary config.defaultTheme) .scoped base = .ok rules ∧
      (shorthand ∈ collapse rules ∧ longhand ∈ collapse rules) ∧
      (shorthand.group, shorthand.rank config.breakpoints) =
        (longhand.group, longhand.rank config.breakpoints) ∧
      Collapse.latest shorthand.place rules = some (shorthand.values, 1) ∧
      Collapse.latest longhand.place rules = some (longhand.values, 2) ∧
      answered.1 = .ok "c-0 c-1" ∧
      answered.2.sheet.rules =
        [⟨.atomic, 0, ".c-0\x7bmargin-left:3px\x7d"⟩, ⟨.atomic, 0, ".c-1\x7bmargin:2px\x7d"⟩] := by
  intro config base style engine longhand shorthand rules answered
  exact ⟨rfl, by decide +kernel⟩

end Engine

end AtomicCss
