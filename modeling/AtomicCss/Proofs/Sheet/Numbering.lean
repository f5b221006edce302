import AtomicCss.Proofs.Sheet.Probing

/-!
Classes by first occurrence.

Declarations are emitted one after another, under any hash function. While there are more slots than
different declarations, a walk always ends, at the rule of its declaration or in front of it. So a
declaration gets the number of different declarations before its first emit, whatever its hash
collides with, and its rule keeps its slot.
-/

namespace AtomicCss.AtomicIndex

variable {hash : AtomicDeclaration → UInt64} {namePrefix : String} {index : AtomicIndex}
  {declaration : AtomicDeclaration} {slot : UInt64}

/-- The index after declarations were emitted in turn. -/
def emitting (hash : AtomicDeclaration → UInt64) (namePrefix : String)
    (declarations : List AtomicDeclaration) : AtomicIndex :=
  declarations.foldl (fun index declaration => (index.emitWith hash declaration).2)
    (empty namePrefix)

theorem emitting_concat (hash : AtomicDeclaration → UInt64) (namePrefix : String)
    (declarations : List AtomicDeclaration) (declaration : AtomicDeclaration) :
    emitting hash namePrefix (declarations ++ [declaration]) =
      ((emitting hash namePrefix declarations).emitWith hash declaration).2 := by
  simp [emitting]

/-- The walk from the hash of a declaration comes to a slot that is free or holds the declaration
itself, and a walk that may take more steps ends there too. -/
def Settles (hash : AtomicDeclaration → UInt64) (index : AtomicIndex)
    (declaration : AtomicDeclaration) : Prop :=
  ∃ count ≤ index.size, index.Passes declaration (hash declaration) count ∧
    (∀ rule, index.get? (hash declaration + .ofNat count) = some rule →
      rule.declaration = declaration) ∧
    ∀ steps, index.size < steps → index.probe declaration steps (hash declaration) =
      match index.get? (hash declaration + .ofNat count) with
      | some rule => .inl rule
      | none => .inr (hash declaration + .ofNat count)

theorem Passes.tail {count : Nat} (passes : index.Passes declaration slot (count + 1)) :
    index.Passes declaration (slot + 1) count := by
  intro earlier before
  rw [next_slot]
  exact passes (earlier + 1) (by omega)

/-- A walk that passes over slots goes on behind them. -/
theorem probe_of_passes {count : Nat} (passes : index.Passes declaration slot count) (steps : Nat) :
    index.probe declaration (count + steps) slot =
      index.probe declaration steps (slot + .ofNat count) := by
  induction count generalizing slot with
  | zero => rw [Nat.zero_add, first_slot]
  | succ count ih =>
    obtain ⟨rule, held, other⟩ := passes 0 (Nat.succ_pos count)
    rw [first_slot] at held
    rw [Nat.succ_add_eq_add_succ, Nat.add_succ, probe]
    simp only [held, if_neg other]
    rw [ih passes.tail, next_slot]

theorem settles (small : index.size < UInt64.size) : index.Settles hash declaration := by
  have ends {count : Nat} (within : count ≤ index.size)
      (passes : index.Passes declaration (hash declaration) count)
      (own : ∀ rule, index.get? (hash declaration + .ofNat count) = some rule →
        rule.declaration = declaration) : index.Settles hash declaration := by
    refine ⟨count, within, passes, own, ?_⟩
    intro steps more
    obtain ⟨rest, rfl⟩ : ∃ rest, steps = count + (rest + 1) := ⟨steps - count - 1, by omega⟩
    rw [probe_of_passes passes, probe]
    cases there : index.get? (hash declaration + .ofNat count) with
    | none => rfl
    | some rule => simp [own rule there]
  have probes := index.probes_probe declaration (index.size + 1) (hash declaration)
  generalize index.probe declaration _ _ = result at probes
  cases probes with
  | found before passes there same =>
    refine ends (Nat.le_of_lt_succ before) passes fun rule held => ?_
    rw [← Option.some.inj (there.symm.trans held)]
    exact same
  | free before passes unheld =>
    refine ends (Nat.le_of_lt_succ before) passes fun rule held => ?_
    cases unheld.symm.trans held
  | exhausted passes =>
    have few := count_of_passes small passes
    omega

/-- An index has a rule for each of some declarations, which got their numbers in this order. -/
structure Numbers (hash : AtomicDeclaration → UInt64) (namePrefix : String)
    (index : AtomicIndex) (declarations : List AtomicDeclaration) : Prop where
  probed : index.Probed hash
  tagged : index.namePrefix = namePrefix
  counter : index.counter = index.size
  order : index.rules.reverse.map (·.declaration) = declarations
  names : index.rules.reverse.map (·.className) =
    (List.range declarations.length).map (classOf namePrefix)

section Numbers

variable {declarations : List AtomicDeclaration}

theorem numbers_empty (hash : AtomicDeclaration → UInt64) (namePrefix : String) :
    (empty namePrefix).Numbers hash namePrefix [] :=
  ⟨probed_empty namePrefix, rfl, rfl, rfl, rfl⟩

theorem Numbers.size (numbers : index.Numbers hash namePrefix declarations) :
    index.size = declarations.length := by
  rw [← numbers.order, List.length_map, List.length_reverse]
  rfl

theorem Numbers.mem_iff (numbers : index.Numbers hash namePrefix declarations) :
    declaration ∈ declarations ↔ declaration ∈ index.rules.map (·.declaration) := by
  rw [← numbers.order]
  simp

theorem Numbers.nodup (numbers : index.Numbers hash namePrefix declarations) :
    declarations.Nodup := by
  rw [← numbers.order, List.map_reverse, List.nodup_reverse]
  exact numbers.probed.declarations

/-- A declaration that has a number is told its class. -/
theorem Numbers.emitWith_of_mem (numbers : index.Numbers hash namePrefix declarations)
    (member : declaration ∈ declarations) :
    index.emitWith hash declaration =
      ((classOf namePrefix (declarations.idxOf declaration), none), index) := by
  obtain ⟨rule, inside, rfl⟩ := List.mem_map.mp (numbers.mem_iff.mp member)
  rw [numbers.probed.emitWith_of_mem inside]
  obtain ⟨number, there⟩ := List.mem_iff_getElem?.mp (List.mem_reverse.mpr inside)
  have declared : declarations[number]? = some rule.declaration := by
    rw [← numbers.order, List.getElem?_map, there]
    rfl
  have named := congrArg (·[number]?) numbers.names
  obtain ⟨within, at_number⟩ := List.getElem?_eq_some_iff.mp declared
  simp only [List.getElem?_map, there, List.getElem?_range within] at named
  have place := numbers.nodup.idxOf_getElem number within
  rw [at_number] at place
  rw [place]
  congr 2
  exact Option.some.inj named

/-- A declaration without a number gets the next one, and its rule a slot of its own. -/
theorem Numbers.emitWith_of_not_mem (numbers : index.Numbers hash namePrefix declarations)
    (small : declarations.length < UInt64.size) (absent : declaration ∉ declarations) :
    ∃ slot, index.emitWith hash declaration =
        ((classOf namePrefix declarations.length, some (index.nextRule slot declaration)),
          index.withRule (index.nextRule slot declaration)) ∧
      (index.nextRule slot declaration).className = classOf namePrefix declarations.length ∧
      (index.withRule (index.nextRule slot declaration)).Numbers hash namePrefix
        (declarations ++ [declaration]) := by
  rw [← numbers.size] at small
  obtain ⟨slot, emitted, probed⟩ :=
    numbers.probed.emitWith_of_absent small (mt numbers.mem_iff.mpr absent)
  have named :
      (index.nextRule slot declaration).className = classOf namePrefix declarations.length := by
    rw [nextRule, numbers.tagged, numbers.counter, numbers.size]
  refine ⟨slot, named ▸ emitted, named, probed, numbers.tagged, ?_, ?_, ?_⟩
  · exact congrArg Nat.succ numbers.counter
  · simp [withRule, numbers.order, nextRule]
  · simp only [withRule, List.reverse_cons, List.map_append, numbers.names, List.map_cons,
      List.map_nil, named, List.length_append, List.length_singleton, List.range_succ]

end Numbers

theorem begins_eraseDups {front whole : List AtomicDeclaration} (begins : front <+: whole) :
    front.eraseDups <+: whole.eraseDups := by
  obtain ⟨back, rfl⟩ := begins
  exact ⟨_, List.eraseDups_append.symm⟩

/-- Emitting declarations numbers those that are different, in the order in which they first
come. -/
theorem numbers_emitting (hash : AtomicDeclaration → UInt64) (namePrefix : String)
    {declarations : List AtomicDeclaration} (few : declarations.eraseDups.length < UInt64.size) :
    (emitting hash namePrefix declarations).Numbers hash namePrefix declarations.eraseDups := by
  induction declarations using List.reverseRecOn with
  | nil => exact numbers_empty hash namePrefix
  | append_singleton earlier declaration ih =>
    have begins := begins_eraseDups (List.prefix_append earlier [declaration])
    have fewer := Nat.lt_of_le_of_lt begins.length_le few
    have numbers := ih fewer
    rw [emitting_concat, eraseDups_concat]
    split
    · next present =>
      rw [numbers.emitWith_of_mem (List.mem_eraseDups.mpr present)]
      exact numbers
    · next absent =>
      obtain ⟨slot, emitted, -, numbered⟩ :=
        numbers.emitWith_of_not_mem fewer (mt List.mem_eraseDups.mp absent)
      rw [emitted]
      exact numbered

theorem rules_emitWith (hash : AtomicDeclaration → UInt64) (index : AtomicIndex)
    (declaration : AtomicDeclaration) :
    index.rules ⊆ (index.emitWith hash declaration).2.rules := by
  unfold emitWith
  split
  · exact List.Subset.refl _
  · exact List.subset_cons_self _ _

theorem rules_emitting (hash : AtomicDeclaration → UInt64) (namePrefix : String)
    {front whole : List AtomicDeclaration} (begins : front <+: whole) :
    (emitting hash namePrefix front).rules ⊆ (emitting hash namePrefix whole).rules := by
  obtain ⟨back, rfl⟩ := begins
  induction back using List.reverseRecOn with
  | nil => rw [List.append_nil]; exact List.Subset.refl _
  | append_singleton back declaration ih =>
    rw [← List.append_assoc, emitting_concat]
    exact List.Subset.trans ih (rules_emitWith hash _ declaration)

section Sequence

variable {declarations : List AtomicDeclaration}

/-- What an emit of a sequence answers: the class of the declaration, and its rule if it is new. -/
theorem answer_emitting (hash : AtomicDeclaration → UInt64) (namePrefix : String)
    (few : declarations.eraseDups.length < UInt64.size) {earlier : List AtomicDeclaration}
    (begins : earlier ++ [declaration] <+: declarations) :
    let className := classOf namePrefix (declarations.eraseDups.idxOf declaration)
    let answer := ((emitting hash namePrefix earlier).emitWith hash declaration).1
    declaration ∈ earlier ∧ answer = (className, none) ∨
      declaration ∉ earlier ∧ ∃ slot,
        let rule : AtomicRule := ⟨slot, className, declaration, declaration.ruleText className⟩
        answer = (className, some rule) ∧
          rule ∈ (emitting hash namePrefix (earlier ++ [declaration])).rules := by
  have shorter := begins_eraseDups ((List.prefix_append earlier [declaration]).trans begins)
  have fewer := Nat.lt_of_le_of_lt shorter.length_le few
  have numbers := numbers_emitting hash namePrefix fewer
  -- The place of a declaration among the different ones does not change when more come.
  have ranked : declarations.eraseDups.idxOf declaration =
      (earlier ++ [declaration]).eraseDups.idxOf declaration := by
    obtain ⟨back, same⟩ := begins_eraseDups begins
    rw [← same, List.idxOf_append_of_mem (by simp [List.mem_eraseDups])]
  rw [ranked, emitting_concat, eraseDups_concat]
  by_cases present : declaration ∈ earlier
  · rw [if_pos present]
    have emitted := numbers.emitWith_of_mem (List.mem_eraseDups.mpr present)
    exact .inl ⟨present, congrArg Prod.fst emitted⟩
  · have absent := mt List.mem_eraseDups.mp present
    obtain ⟨slot, emitted, named, -⟩ := numbers.emitWith_of_not_mem fewer absent
    have last :
        (earlier.eraseDups ++ [declaration]).idxOf declaration = earlier.eraseDups.length := by
      simp [List.idxOf_append, absent]
    rw [if_neg present, last, emitted, ← named]
    exact .inr ⟨present, slot, rfl, List.mem_cons_self⟩

/-- Under any hash function and for fewer different declarations than there are slots, of emits in
turn: each walk ends; two answer the same class iff their declarations are equal; a rule is answered
at the first emit of a declaration, and stays in its slot; and classes are numbered as declarations
first come, so an index has as many rules as there were different declarations. -/
theorem numbered_by_first_emit (hash : AtomicDeclaration → UInt64) (namePrefix : String)
    (few : declarations.eraseDups.length < UInt64.size) :
    let index count := emitting hash namePrefix (declarations.take count)
    let answer (place : Fin declarations.length) :=
      ((index place).emitWith hash declarations[place]).1
    (∀ place : Fin declarations.length, (index place).Settles hash declarations[place]) ∧
      (∀ first second, (answer first).1 = (answer second).1 ↔
        declarations[first] = declarations[second]) ∧
      (∀ place, (answer place).2.isSome ↔ declarations[place] ∉ declarations.take place) ∧
      (∀ place number, declarations.eraseDups[number]? = some declarations[place] →
        (answer place).1 = Name.prefixed namePrefix ("c-" ++ Text.Base36.encode number)) ∧
      (∀ place rule, (answer place).2 = some rule →
        rule.declaration = declarations[place] ∧ rule.className = (answer place).1 ∧
          rule.css = declarations[place].ruleText (answer place).1 ∧
          ∀ count > place.val, (index count).get? rule.slot = some rule) ∧
      ∀ count, (index count).size = (declarations.take count).eraseDups.length := by
  intro index answer
  have fewer (count : Nat) : (declarations.take count).eraseDups.length < UInt64.size :=
    Nat.lt_of_le_of_lt (begins_eraseDups (List.take_prefix count declarations)).length_le few
  have numbers (count : Nat) := numbers_emitting hash namePrefix (fewer count)
  have taken (place : Fin declarations.length) :
      declarations.take place ++ [declarations[place]] = declarations.take (place + 1) :=
    (List.take_succ_eq_append_getElem place.isLt).symm
  have told (place : Fin declarations.length) :=
    answer_emitting hash namePrefix few (taken place ▸ List.take_prefix (place + 1) declarations)
  have named (place : Fin declarations.length) :
      (answer place).1 = classOf namePrefix (declarations.eraseDups.idxOf declarations[place]) := by
    rcases told place with ⟨-, same⟩ | ⟨-, slot, same, -⟩ <;> exact congrArg Prod.fst same
  have listed (place : Fin declarations.length) : declarations[place] ∈ declarations.eraseDups :=
    List.mem_eraseDups.mpr (List.getElem_mem place.isLt)
  refine ⟨fun place => ?_, fun first second => ?_, fun place => ?_, fun place number there => ?_,
    fun place rule given => ?_, fun count => (numbers count).size⟩
  · exact settles ((numbers place).size ▸ fewer place)
  · rw [named, named]
    constructor
    · intro same
      exact (List.idxOf_inj (listed first)).mp (classOf_injective same)
    · intro same
      rw [same]
  · rcases told place with ⟨present, same⟩ | ⟨absent, slot, same, -⟩
    · have none_given : (answer place).2 = none := congrArg Prod.snd same
      rw [none_given]
      exact iff_of_false Bool.false_ne_true (not_not_intro present)
    · have given : (answer place).2 = some _ := congrArg Prod.snd same
      rw [given]
      exact iff_of_true rfl absent
  · obtain ⟨within, there⟩ := List.getElem?_eq_some_iff.mp there
    have distinct := (List.take_length (l := declarations) ▸ numbers declarations.length).nodup
    rw [named, ← there, distinct.idxOf_getElem number within]
    rfl
  · rcases told place with ⟨-, same⟩ | ⟨-, slot, same, inside⟩
    · cases given.symm.trans (congrArg Prod.snd same)
    · obtain rfl := Option.some.inj (given.symm.trans (congrArg Prod.snd same))
      refine ⟨rfl, (named place).symm, by rw [named place], ?_⟩
      intro count later
      rw [taken] at inside
      have kept := rules_emitting hash namePrefix
        ((List.take_prefix_take_left later) :
          declarations.take (place + 1) <+: declarations.take count)
      exact get?_of_mem (numbers count).probed.slots (kept inside)

/-- Two declarations with the last hash there is: the second one takes the first slot of all, and
the first one is known when it comes again. -/
theorem numbered_of_last_hash :
    let red : AtomicDeclaration := ⟨[], "&", "color", ["red"]⟩
    let blue : AtomicDeclaration := ⟨[], "&", "color", ["blue"]⟩
    let declarations := [red, blue, red]
    let index count := emitting (fun _ => 18446744073709551615) "x" (declarations.take count)
    let answer (place : Fin 3) :=
      ((index place).emitWith (fun _ => 18446744073709551615) declarations[place]).1
    declarations.eraseDups.length < UInt64.size ∧ (answer 0).1 = (answer 2).1 ∧
      (answer 1).1 = "x-c-1" ∧ (answer 2).2.isSome = false ∧ (index 3).size = 2 ∧
      (index 3).get? 0 = some ⟨0, "x-c-1", blue, ".x-c-1\x7bcolor:blue\x7d"⟩ := by
  intro red blue declarations index answer
  have few : declarations.eraseDups.length < UInt64.size := by decide
  obtain ⟨-, alike, first, numbers, stays, sizes⟩ :=
    numbered_by_first_emit (fun _ => 18446744073709551615) "x" few
  have again : ¬(answer 2).2.isSome := fun shown => absurd ((first 2).mp shown) (by decide)
  have second : (answer 1).1 = "x-c-1" := (numbers 1 1 (by decide)).trans (by decide +kernel)
  have given : (answer 1).2 = some ⟨0, "x-c-1", blue, ".x-c-1\x7bcolor:blue\x7d"⟩ := by
    decide +kernel
  exact ⟨few, (alike 0 2).mpr rfl, second, Bool.eq_false_iff.mpr again, sizes 3,
    (stays 1 _ given).2.2.2 3 (by decide)⟩

end Sequence

end AtomicCss.AtomicIndex
