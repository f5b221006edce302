import AtomicCss.Proofs.Engine.ClassName
import AtomicCss.Proofs.Sheet.Probing

/-!
What an engine emitted, in order.

A declaration is emitted when it first gets a class, and once only: while there are slots left, it
is found again whatever its hash collides with. The rules of classes stand in the sheet in the order
in which their declarations were emitted, as far as groups and ranks leave it open; a rule is
missing only if its slot was the hash of a text. And what an engine remembers is what computing it
again gives.
-/

namespace AtomicCss

namespace Sheet

/-- The rules behind all texts of themes and global styles. -/
def atomicRules (sheet : Sheet) : List SheetRule :=
  sheet.rules.filter fun rule => 3 ≤ rule.group.order

theorem ordered_rules {sheet : Sheet} (sorted : sheet.Sorted) :
    sheet.rules.Pairwise fun first second => first.before second = true := by
  rw [rules, List.pairwise_flatMap]
  constructor
  · intro group _
    rw [List.pairwise_map]
    apply (sorted group).imp
    intro first second below
    exact SheetRule.before_iff.mpr (.inr ⟨rfl, below⟩)
  · have rising : SheetGroup.all.Pairwise fun first second => first.order < second.order := by
      decide
    apply rising.imp
    intro first second above rule left other right
    obtain ⟨ranked, -, rfl⟩ := List.mem_map.mp left
    obtain ⟨ranked_other, -, rfl⟩ := List.mem_map.mp right
    exact SheetRule.before_iff.mpr (.inl above)

theorem stableOrder_atomicRules {sheet : Sheet} (sorted : sheet.Sorted) :
    SheetRule.StableOrder sheet.atomicRules sheet.atomicRules :=
  .refl ((ordered_rules sorted).sublist List.filter_sublist)

theorem atomicRules_take_of_early {sheet : Sheet} (sorted : sheet.Sorted) {insertion : Insertion}
    (early : insertion.group.order < 3) :
    (sheet.take insertion).2.atomicRules = sheet.atomicRules := by
  by_cases seen : insertion.hash ∈ sheet.seen
  · rw [take, insert_of_seen seen]
  · obtain ⟨index, after, taken, split, -⟩ :=
      insert_of_fresh sorted seen insertion.group insertion.rank insertion.css
    rw [take, taken]
    exact split.filter_of_not (by simpa using early)

/-- A rule of a class goes behind those of its level, unless its hash came before. -/
theorem stableOrder_take {sheet : Sheet} (sorted : sheet.Sorted) (insertion : Insertion)
    (late : 3 ≤ insertion.group.order) :
    (sheet.take insertion).2.atomicRules = sheet.atomicRules ∨
      SheetRule.StableOrder (sheet.atomicRules ++ [insertion.rule])
        (sheet.take insertion).2.atomicRules := by
  by_cases seen : insertion.hash ∈ sheet.seen
  · rw [take, insert_of_seen seen]
    exact .inl rfl
  · obtain ⟨index, after, taken, split, -⟩ :=
      insert_of_fresh sorted seen insertion.group insertion.rank insertion.css
    obtain ⟨place, kept⟩ := split.filter (fun rule => 3 ≤ rule.group.order) (by simpa using late)
    rw [take, taken]
    exact .inr ((stableOrder_atomicRules sorted).splits kept)

theorem length_atomicRules_take {sheet : Sheet} (sorted : sheet.Sorted) (insertion : Insertion)
    (late : 3 ≤ insertion.group.order) (unseen : insertion.hash ∉ sheet.seen) :
    (sheet.take insertion).2.atomicRules.length = sheet.atomicRules.length + 1 := by
  obtain ⟨index, after, taken, split, -⟩ :=
    insert_of_fresh sorted unseen insertion.group insertion.rank insertion.css
  obtain ⟨place, kept⟩ := split.filter (fun rule => 3 ≤ rule.group.order) (by simpa using late)
  obtain ⟨front, back, before, behind, -⟩ := kept
  rw [take, taken, atomicRules, atomicRules, before, behind]
  simp [Nat.add_assoc]

end Sheet

theorem AtomicDeclaration.order_group (declaration : AtomicDeclaration) :
    3 ≤ declaration.group.order := by
  unfold group
  split
  · decide
  · split <;> decide

/-- What stands in the sheet for a rule of a class. -/
def AtomicRule.inSheet (breakpoints : Breakpoints) (rule : AtomicRule) : SheetRule :=
  ⟨rule.declaration.group, rule.declaration.rank breakpoints, rule.css⟩

namespace Engine

/-- The declarations that got a class, in the order in which they did. -/
def declared (engine : Engine) : List AtomicDeclaration :=
  engine.index.rules.reverse.map (·.declaration)

/-- There is a slot for every rule. -/
def Fits (engine : Engine) : Prop := engine.index.size ≤ UInt64.size

/-- What holds of an engine whose rules fit, whatever their hashes are. -/
structure Filed (engine : Engine) : Prop where
  numbered : engine.Numbered
  css : ∀ rule ∈ engine.index.rules, rule.css = rule.declaration.ruleText rule.className
  probed : engine.index.Probed AtomicDeclaration.hash
  memo : ∀ number key text, ((number, key), text) ∈ engine.memo → engine.Answers number key text

theorem mem_declared {engine : Engine} {declaration : AtomicDeclaration} :
    declaration ∈ engine.declared ↔ ∃ className, engine.Has className declaration := by
  simp only [declared, List.mem_map, List.mem_reverse, Has]
  constructor
  · rintro ⟨rule, inside, declares⟩
    exact ⟨rule.className, rule, inside, rfl, declares⟩
  · rintro ⟨className, rule, inside, -, declares⟩
    exact ⟨rule, inside, declares⟩

theorem mem_declarations_iff {engine : Engine} {declaration : AtomicDeclaration} :
    declaration ∈ engine.index.rules.map (·.declaration) ↔ declaration ∈ engine.declared := by
  simp [declared]

/-- A declaration that has a class gets it again, and nothing changes. -/
theorem Filed.emit_of_has {engine : Engine} (filed : engine.Filed) {className : String}
    {declaration : AtomicDeclaration} (has : engine.Has className declaration) :
    engine.emit declaration = (className, engine) := by
  obtain ⟨rule, inside, rfl, rfl⟩ := has
  rw [emit, AtomicIndex.emit, filed.probed.emitWith_of_mem inside]

/-- The second engine has the rules of the first and then further ones, some of which went to the
sheet, each behind the rules of its level. -/
def Appends (first second : Engine) : Prop :=
  ∃ fresh kept, second.index.rules = fresh ++ first.index.rules ∧ List.Sublist kept fresh.reverse ∧
    SheetRule.StableOrder
      (first.sheet.atomicRules ++ kept.map (AtomicRule.inSheet first.config.breakpoints))
      second.sheet.atomicRules

theorem appends_of_same {first second : Engine} (sorted : first.sheet.Sorted)
    (index : second.index = first.index)
    (rules : second.sheet.atomicRules = first.sheet.atomicRules) : Appends first second := by
  refine ⟨[], [], by rw [index, List.nil_append], .slnil, ?_⟩
  rw [rules, List.map_nil, List.append_nil]
  exact Sheet.stableOrder_atomicRules sorted

theorem Appends.trans {first second third : Engine} (left : Appends first second)
    (right : Appends second third) (same : second.config = first.config) : Appends first third := by
  obtain ⟨fresh, kept, rules, within, order⟩ := left
  obtain ⟨more, kept_more, rules_more, within_more, order_more⟩ := right
  refine ⟨more ++ fresh, kept ++ kept_more, ?_, ?_, ?_⟩
  · rw [rules_more, rules, List.append_assoc]
  · rw [List.reverse_append]
    exact within.append within_more
  · rw [same] at order_more
    rw [List.map_append]
    exact order.trans order_more

theorem Appends.fits {first second : Engine} (appends : Appends first second) (fits : second.Fits) :
    first.Fits := by
  obtain ⟨fresh, -, rules, -⟩ := appends
  rw [Fits, AtomicIndex.size, rules, List.length_append] at fits
  rw [Fits, AtomicIndex.size]
  omega

/-- The engine is filed as long as its rules fit. -/
def Tidy (engine : Engine) : Prop := engine.Fits → engine.Filed

/-- Unless hashes collide, the sheet has a rule for each declaration that got a class. -/
def Full (engine : Engine) : Prop :=
  engine.HashesApart → engine.index.size ≤ engine.sheet.atomicRules.length

/-- The second engine has further rules at most, and what holds of the rules of the first still
does. -/
structure Extends (first second : Engine) : Prop where
  appends : Appends first second
  tidy : first.Tidy → second.Tidy
  full : first.Kept → first.Full → second.Full

/-- What every call does to an engine, whatever hashes collide. -/
def Continues (first second : Engine) : Prop :=
  Advances first second ∧ (first.sheet.Sorted → Extends first second)

theorem continues_composes : Composes Continues where
  refl engine :=
    ⟨advances_composes.refl engine, fun sorted => ⟨appends_of_same sorted rfl rfl, id, fun _ => id⟩⟩
  trans earlier later := by
    refine ⟨advances_composes.trans earlier.1 later.1, fun sorted => ?_⟩
    obtain ⟨grows, middle, kept⟩ := earlier.1 sorted
    have own := earlier.2 sorted
    have rest := later.2 middle
    exact ⟨own.appends.trans rest.appends grows.config, rest.tidy ∘ own.tidy,
      fun consistent full => rest.full (kept consistent) (own.full consistent full)⟩

/-- A change that leaves the index and the rules of classes alone. -/
theorem continues_of_same {first second : Engine} (advances : Advances first second)
    (index : second.index = first.index)
    (rules : first.sheet.Sorted → second.sheet.atomicRules = first.sheet.atomicRules)
    (memo : first.sheet.Sorted → first.Filed → ∀ number key text,
      ((number, key), text) ∈ second.memo → second.Answers number key text) :
    Continues first second := by
  refine ⟨advances, fun sorted => ⟨appends_of_same sorted index (rules sorted), ?_, ?_⟩⟩
  · intro tidy fits
    rw [Fits, index] at fits
    have filed := tidy fits
    refine ⟨?_, ?_, ?_, memo sorted filed⟩
    · rw [Numbered, index]
      exact filed.numbered
    · rw [index]
      exact filed.css
    · rw [index]
      exact filed.probed
  · intro _ full apart
    rw [index, rules sorted]
    exact full ((advances sorted).1.apart apart)

theorem appends_withDeclaration {engine : Engine} (sorted : engine.sheet.Sorted) (slot : UInt64)
    (declaration : AtomicDeclaration) :
    Appends engine (engine.withDeclaration slot declaration) := by
  rcases Sheet.stableOrder_take sorted
    ⟨declaration.group, declaration.rank engine.config.breakpoints, slot,
      (engine.index.nextRule slot declaration).css⟩ declaration.order_group with same | placed
  · refine ⟨[engine.index.nextRule slot declaration], [], rfl, List.nil_sublist _, ?_⟩
    rw [withDeclaration, same, List.map_nil, List.append_nil]
    exact Sheet.stableOrder_atomicRules sorted
  · exact ⟨[engine.index.nextRule slot declaration], [engine.index.nextRule slot declaration], rfl,
      List.Sublist.refl _, placed⟩

theorem size_emit_of_absent {engine : Engine} {declaration : AtomicDeclaration}
    (absent : declaration ∉ engine.declared) :
    (engine.emit declaration).2.index.size = engine.index.size + 1 := by
  have emits := engine.emits_emit declaration
  generalize engine.emit declaration = answer at emits ⊢
  cases emits with
  | known has => exact absurd (mem_declared.mpr ⟨_, has⟩) absent
  | next slot _ _ => rfl

/-- A declaration without a class gets the next one. -/
theorem Filed.emit_of_absent {engine : Engine} (filed : engine.Filed)
    {declaration : AtomicDeclaration} (fits : (engine.emit declaration).2.Fits)
    (absent : declaration ∉ engine.declared) :
    ∃ slot, engine.emit declaration =
        ((engine.index.nextRule slot declaration).className,
          engine.withDeclaration slot declaration) ∧
      (engine.withDeclaration slot declaration).index.Probed AtomicDeclaration.hash := by
  rw [Fits, size_emit_of_absent absent] at fits
  obtain ⟨slot, emitted, probed⟩ :=
    filed.probed.emitWith_of_absent (Nat.lt_of_succ_le fits) (mt mem_declarations_iff.mp absent)
  refine ⟨slot, ?_, probed⟩
  rw [emit, AtomicIndex.emit, emitted]
  rfl

theorem filed_emit {engine : Engine} (filed : engine.Filed) {declaration : AtomicDeclaration}
    (grows : Grows engine (engine.emit declaration).2) (fits : (engine.emit declaration).2.Fits) :
    (engine.emit declaration).2.Filed := by
  by_cases present : declaration ∈ engine.declared
  · obtain ⟨className, has⟩ := mem_declared.mp present
    rw [filed.emit_of_has has]
    exact filed
  · obtain ⟨slot, emitted, probed⟩ := filed.emit_of_absent fits present
    rw [emitted] at grows ⊢
    refine ⟨filed.numbered.withDeclaration slot declaration, ?_, probed, ?_⟩
    · intro rule member
      rcases List.mem_cons.mp member with rfl | old
      · rfl
      · exact filed.css rule old
    · intro number key text member
      exact (filed.memo number key text member).grow grows

theorem full_emit {engine : Engine} (sorted : engine.sheet.Sorted) (kept : engine.Kept)
    (full : engine.Full) {declaration : AtomicDeclaration} (marked : declaration.Marked) :
    (engine.emit declaration).2.Full := by
  have emits := engine.emits_emit declaration
  generalize engine.emit declaration = answer at emits ⊢
  cases emits with
  | known _ => exact full
  | next slot free absent =>
    intro apart
    have grows := (advances_withDeclaration marked free absent sorted).1
    have present : declaration.parts ∈ (engine.withDeclaration slot declaration).hashed :=
      List.mem_append_left _ List.mem_cons_self
    obtain ⟨unused, unseen⟩ := (kept (grows.apart apart)).free grows apart marked present absent
    obtain rfl := free unused
    have added := Sheet.length_atomicRules_take sorted
      ⟨declaration.group, declaration.rank engine.config.breakpoints, declaration.hash,
        (engine.index.nextRule declaration.hash declaration).css⟩ declaration.order_group unseen
    exact (Nat.succ_le_succ (full (grows.apart apart))).trans added.ge

theorem continues_emit (engine : Engine) {declaration : AtomicDeclaration}
    (marked : declaration.Marked) : Continues engine (engine.emit declaration).2 := by
  refine ⟨advances_emit engine marked, fun sorted => ?_⟩
  have appends : Appends engine (engine.emit declaration).2 := by
    have emits := engine.emits_emit declaration
    generalize engine.emit declaration = answer at emits ⊢
    cases emits with
    | known _ => exact appends_of_same sorted rfl rfl
    | next slot _ _ => exact appends_withDeclaration sorted slot declaration
  refine ⟨appends, fun tidy fits => ?_, fun kept full => full_emit sorted kept full marked⟩
  exact filed_emit (tidy (appends.fits fits)) (advances_emit engine marked sorted).1 fits

theorem continues_emitAll {declarations : List AtomicDeclaration}
    (marked : ∀ declaration ∈ declarations, declaration.Marked) (engine : Engine)
    (classes : List String) : Continues engine (engine.emitAll declarations classes).2 := by
  induction declarations generalizing engine classes with
  | nil => exact continues_composes.refl engine
  | cons declaration rest ih =>
    obtain ⟨own, others⟩ := List.forall_mem_cons.mp marked
    exact continues_composes.trans (continues_emit engine own) (ih others _ _)

/-- Declarations that have classes get them again, and nothing changes. -/
theorem Filed.emitAll_of_has {engine : Engine} (filed : engine.Filed) {names classes : List String}
    {declarations : List AtomicDeclaration} (given : List.Forall₂ engine.Has names declarations)
    (distinct : (classes ++ names).Nodup) :
    engine.emitAll declarations classes = (classes ++ names, engine) := by
  induction given generalizing classes with
  | nil => rw [emitAll, List.append_nil]
  | @cons className declaration names rest has _ ih =>
    have emitted := filed.emit_of_has has
    have fresh : (engine.emit declaration).1 ∉ classes := by
      rw [emitted]
      intro member
      exact (List.nodup_append.mp distinct).2.2 className member className List.mem_cons_self rfl
    rw [emitAll_cons_of_fresh fresh, emitted, ih (by simpa using distinct), List.append_assoc]
    rfl

theorem Filed.declared_emit {engine : Engine} (filed : engine.Filed)
    {declaration : AtomicDeclaration} (fits : (engine.emit declaration).2.Fits) :
    (engine.emit declaration).2.declared =
      if declaration ∈ engine.declared then engine.declared
      else engine.declared ++ [declaration] := by
  split
  · next present =>
    obtain ⟨className, has⟩ := mem_declared.mp present
    rw [filed.emit_of_has has]
  · next absent =>
    obtain ⟨slot, emitted, -⟩ := filed.emit_of_absent fits absent
    rw [emitted]
    simp [declared, withDeclaration, AtomicIndex.withRule, AtomicIndex.nextRule]

/-- Emitting declarations adds those that had no class, in their order. -/
theorem declared_emitAll {declarations : List AtomicDeclaration}
    (marked : ∀ declaration ∈ declarations, declaration.Marked) (distinct : declarations.Nodup)
    {engine : Engine} {classes : List String} (sorted : engine.sheet.Sorted) (tidy : engine.Tidy)
    (fits : (engine.emitAll declarations classes).2.Fits) :
    (engine.emitAll declarations classes).2.declared =
      engine.declared ++ declarations.filter (· ∉ engine.declared) := by
  induction declarations generalizing engine classes with
  | nil => simp [emitAll]
  | cons declaration rest ih =>
    obtain ⟨own, others⟩ := List.forall_mem_cons.mp marked
    obtain ⟨absent, distinct⟩ := List.nodup_cons.mp distinct
    obtain ⟨-, next_sorted, -⟩ := advances_emit engine own sorted
    have extended := (continues_emit engine own).2 sorted
    obtain ⟨more, step⟩ : ∃ more, engine.emitAll (declaration :: rest) classes =
        (engine.emit declaration).2.emitAll rest more := ⟨_, rfl⟩
    rw [step] at fits ⊢
    have later := (continues_emitAll others (engine.emit declaration).2 more).2 next_sorted
    have fits_next := later.appends.fits fits
    have filed := tidy (extended.appends.fits fits_next)
    rw [ih others distinct next_sorted (extended.tidy tidy) fits, filed.declared_emit fits_next]
    by_cases present : declaration ∈ engine.declared
    · simp [present]
    · have others_kept :
          (rest.filter fun other => decide (other ∉ engine.declared ++ [declaration])) =
          rest.filter fun other => decide (other ∉ engine.declared) := by
        apply List.filter_congr
        intro other member
        have different : other ≠ declaration := by
          rintro rfl
          exact absent member
        simp [different]
      rw [if_neg present, others_kept, List.filter_cons_of_pos (by simpa using present),
        List.append_assoc, List.singleton_append]

section Settled

variable {settle : Settle Engine}

theorem continues_settled (settles : ∀ engine, Continues engine (settle engine)) (engine : Engine)
    {declarations : List AtomicDeclaration}
    (marked : ∀ declaration ∈ declarations, declaration.Marked) :
    Continues engine (engine.settled settle declarations) :=
  continues_composes.trans (continues_emitAll marked engine []) (settles _)

theorem continues_className (settles : ∀ engine, Continues engine (settle engine)) (engine : Engine)
    {style : CompiledStyle} (selection : VariantSelection) (override : Option StyleNode)
    (known : engine.style? style.number = some style) :
    Continues engine (engine.className settle style selection override).2 := by
  have advances :=
    advances_className (fun engine => (settles engine).1) engine selection override known
  have asked := engine.asked_className settle style selection override
  generalize engine.className settle style selection override = answer at advances asked ⊢
  cases asked with
  | remembered _ => exact continues_composes.refl engine
  | refused _ => exact continues_composes.refl engine
  | overridden found => exact continues_settled settles engine (marked_declarations found).1
  | noted _ found =>
    refine ⟨advances, fun sorted => ?_⟩
    obtain ⟨advances_settled, settled⟩ :=
      continues_settled settles engine (marked_declarations found).1
    obtain ⟨grows, -, -⟩ := advances_settled sorted
    obtain ⟨appends, keeps, fills⟩ := settled sorted
    refine ⟨appends, fun tidy fits => ?_, fun kept full apart =>
      fills kept full ((grows_remember _ _ _ _).apart apart)⟩
    have filed := keeps tidy fits
    have answers := answers_settled (fun engine => (settles engine).1) known sorted
      (tidy (appends.fits fits)).numbered found
    refine ⟨filed.numbered, filed.css, filed.probed, ?_⟩
    intro number key text member
    rcases List.mem_cons.mp member with same | old
    · obtain ⟨⟨rfl, rfl⟩, rfl⟩ := by simpa using same
      exact answers.grow (grows_remember _ _ _ _)
    · exact (filed.memo number key text old).grow (grows_remember _ _ _ _)

theorem continues_text (engine : Engine) {group : SheetGroup} (early : group.order < 3)
    (css : String) :
    Continues engine
      { engine with
        sheet := (engine.sheet.take ⟨group, 0, Hash.content (textParts group css), css⟩).2 } := by
  have advances := advances_text engine early css
  apply continues_of_same advances rfl
  · exact fun sorted => Sheet.atomicRules_take_of_early sorted early
  · intro sorted filed number key text member
    exact (filed.memo number key text member).grow (advances sorted).1

theorem continues_compiled (engine : Engine) (definition : StyleDefinition) :
    Continues engine { engine with styles := engine.styles ++ [definition] } := by
  have advances := advances_compiled engine definition
  apply continues_of_same advances rfl (fun _ => rfl)
  intro sorted filed number key text member
  exact (filed.memo number key text member).grow (advances sorted).1

theorem continues_holdsAcross (settles : ∀ engine, Continues engine (settle engine)) :
    HoldsAcross settle Continues where
  toComposes := continues_composes
  compiled := continues_compiled
  text engine _ css early := continues_composes.trans (continues_text engine early css) (settles _)
  asked engine _ selection override known :=
    continues_className settles engine selection override known

end Settled

theorem continues_replica : HoldsAcrossReplica Continues := by
  intro engine replica pending
  have advances := advances_replica engine replica pending
  apply continues_of_same advances rfl (fun _ => rfl)
  intro sorted filed number key text member
  exact (filed.memo number key text member).grow (advances sorted).1

theorem continues_drain (engine : Engine) : Continues engine engine.drain :=
  related_drain (continues_holdsAcross continues_composes.refl) continues_replica.delivery engine

theorem filed_bare (config : Config) (replicated : Bool) : (bare config replicated).Filed where
  numbered := rfl
  css := by simp [bare, AtomicIndex.empty]
  probed := AtomicIndex.probed_empty config.namePrefix
  memo := by simp [bare]

theorem continues_run (config : Config) (replicated : Bool) (script : List (List Request))
    (requests : List Request) :
    Continues (bare config replicated)
      (((start drain config replicated).withScript script).run requests) :=
  (continues_holdsAcross continues_drain).reached continues_replica config replicated
    script requests

/-- What every engine is that a configuration leads to. -/
theorem Continues.reached {config : Config} {replicated : Bool} {engine : Engine}
    (continues : Continues (bare config replicated) engine) :
    Grows (bare config replicated) engine ∧ engine.sheet.Sorted ∧
      Appends (bare config replicated) engine ∧ engine.Tidy ∧ engine.Kept ∧ engine.Full := by
  have sorted := sorted_bare config replicated
  have kept : (bare config replicated).Kept := fun _ => consistent_bare config replicated
  obtain ⟨grows, engine_sorted, keeps⟩ := continues.1 sorted
  obtain ⟨appends, tidy, full⟩ := continues.2 sorted
  exact ⟨grows, engine_sorted, appends, tidy fun _ => filed_bare config replicated, keeps kept,
    full kept fun _ => Nat.zero_le _⟩

end Engine

end AtomicCss
