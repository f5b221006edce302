import AtomicCss.Proofs.Engine.Calls
import AtomicCss.Proofs.Sheet.Index

/-!
What ties the classes of an engine to its sheet.

Unless two of the texts that an engine hashed share a hash, each declaration that was given a class
has its rule in the sheet, and what the engine remembers for a selection are the classes of its
declarations. Calls only add to what an engine holds, so it is enough that the texts of the last
engine are told apart.
-/

namespace AtomicCss

namespace Sheet

theorem sorted_take {sheet : Sheet} (sorted : sheet.Sorted) (insertion : Insertion) :
    (sheet.take insertion).2.Sorted := by
  by_cases seen : insertion.hash ∈ sheet.seen
  · rw [take, insert_of_seen seen]
    exact sorted
  · obtain ⟨index, after, taken, -, after_sorted, -⟩ :=
      insert_of_fresh sorted seen insertion.group insertion.rank insertion.css
    rw [take, taken]
    exact after_sorted

theorem mem_rules_take {sheet : Sheet} (sorted : sheet.Sorted) (insertion : Insertion)
    (rule : SheetRule) :
    rule ∈ (sheet.take insertion).2.rules ↔
      rule ∈ sheet.rules ∨ (insertion.hash ∉ sheet.seen ∧ rule = insertion.rule) := by
  by_cases seen : insertion.hash ∈ sheet.seen
  · simp [take, insert_of_seen seen, seen]
  · obtain ⟨index, after, taken, ⟨front, back, before, behind, -⟩, -⟩ :=
      insert_of_fresh sorted seen insertion.group insertion.rank insertion.css
    simp only [take, taken, before, behind, seen, List.mem_append, List.mem_cons, Insertion.rule,
      not_false_eq_true, true_and]
    exact or_left_comm.trans or_comm

end Sheet

namespace Engine

/-- The lists of texts that were hashed for what the engine holds. -/
def hashed (engine : Engine) : List (List String) :=
  engine.index.rules.map (·.declaration.parts) ++
    (engine.sheet.rules.filter (·.group.order < 3)).map fun rule => textParts rule.group rule.css

/-- No two different lists of texts that were hashed share a hash. -/
def HashesApart (engine : Engine) : Prop :=
  ∀ first ∈ engine.hashed, ∀ second ∈ engine.hashed,
    Hash.content first = Hash.content second → first = second

/-- The second engine holds all that the first does. -/
structure Grows (first second : Engine) : Prop where
  config : second.config = first.config
  theme : second.theme = first.theme
  rules : first.index.rules ⊆ second.index.rules
  sheet : first.sheet.rules ⊆ second.sheet.rules
  styles : ∀ {number : Nat} {definition}, first.styles[number]? = some definition →
    second.styles[number]? = some definition

theorem grows_composes : Composes Grows where
  refl _ := ⟨rfl, rfl, List.Subset.refl _, List.Subset.refl _, id⟩
  trans earlier later :=
    ⟨later.config.trans earlier.config, later.theme.trans earlier.theme,
      List.Subset.trans earlier.rules later.rules, List.Subset.trans earlier.sheet later.sheet,
      later.styles ∘ earlier.styles⟩

theorem Grows.hashed {first second : Engine} (grows : Grows first second) :
    first.hashed ⊆ second.hashed := by
  intro parts member
  rcases List.mem_append.mp member with declared | written
  · obtain ⟨rule, inside, rfl⟩ := List.mem_map.mp declared
    exact List.mem_append_left _ (List.mem_map.mpr ⟨rule, grows.rules inside, rfl⟩)
  · obtain ⟨rule, inside, rfl⟩ := List.mem_map.mp written
    obtain ⟨held, early⟩ := List.mem_filter.mp inside
    exact List.mem_append_right _
      (List.mem_map.mpr ⟨rule, List.mem_filter.mpr ⟨grows.sheet held, early⟩, rfl⟩)

theorem Grows.apart {first second : Engine} (grows : Grows first second)
    (apart : second.HashesApart) :
    first.HashesApart :=
  fun left inside right within => apart left (grows.hashed inside) right (grows.hashed within)

theorem Grows.declarations {first second : Engine} (grows : Grows first second)
    (definition : StyleDefinition) (selection : VariantSelection) (override : Option StyleNode) :
    second.declarations definition selection override =
      first.declarations definition selection override := by
  simp only [Engine.declarations, vocabulary, grows.config, grows.theme]

theorem Grows.style? {first second : Engine} (grows : Grows first second) {number : Nat}
    {style : CompiledStyle} (known : Engine.style? first number = some style) :
    Engine.style? second number = some style := by
  obtain ⟨definition, found, rfl⟩ := Option.map_eq_some_iff.mp known
  exact Option.map_eq_some_iff.mpr ⟨definition, grows.styles found, rfl⟩

def Has (engine : Engine) (className : String) (declaration : AtomicDeclaration) : Prop :=
  ∃ rule ∈ engine.index.rules, rule.className = className ∧ rule.declaration = declaration

theorem Has.grow {first second : Engine} (grows : Grows first second) {className : String}
    {declaration : AtomicDeclaration} (has : first.Has className declaration) :
    second.Has className declaration := by
  obtain ⟨rule, inside, named, declares⟩ := has
  exact ⟨rule, grows.rules inside, named, declares⟩

/-- A text lists the classes of the declarations of some selection with a key. -/
def Answers (engine : Engine) (number : Nat) (key : SelectionKey) (text : String) : Prop :=
  ∃ definition selection declarations classes, engine.styles[number]? = some definition ∧
    VariantSelection.key selection = key ∧
    engine.declarations definition selection none = .ok declarations ∧
    text = " ".intercalate classes ∧ List.Forall₂ engine.Has classes declarations

theorem Answers.grow {first second : Engine} (grows : Grows first second) {number : Nat}
    {key : SelectionKey} {text : String} (answers : first.Answers number key text) :
    second.Answers number key text := by
  obtain ⟨definition, selection, declarations, classes, style, keyed, found, joined, held⟩ :=
    answers
  exact ⟨definition, selection, declarations, classes, grows.styles style, keyed,
    (grows.declarations _ _ _).trans found, joined, held.imp fun _ _ => Has.grow grows⟩

/-- The rule of a class stands in the slot of its hash and in the sheet. -/
structure Stands (engine : Engine) (rule : AtomicRule) : Prop where
  marked : rule.declaration.Marked
  slot : rule.slot = rule.declaration.hash
  css : rule.css = rule.declaration.ruleText rule.className
  sheet : ⟨rule.declaration.group, rule.declaration.rank engine.config.breakpoints, rule.css⟩ ∈
    engine.sheet.rules

/-- The invariant of an engine whose hashes are apart. -/
structure Consistent (engine : Engine) : Prop where
  namePrefix : engine.index.namePrefix = engine.config.namePrefix
  names : engine.index.rules.map (·.className) =
    ((List.range engine.index.counter).map (AtomicIndex.classOf engine.index.namePrefix)).reverse
  slots : (engine.index.rules.map (·.slot)).Nodup
  stands : ∀ rule ∈ engine.index.rules, engine.Stands rule
  seen : ∀ hash ∈ engine.sheet.seen, ∃ parts ∈ engine.hashed, Hash.content parts = hash
  memo : ∀ number key text, ((number, key), text) ∈ engine.memo → engine.Answers number key text

theorem Stands.grow {first second : Engine} (grows : Grows first second) {rule : AtomicRule}
    (stands : first.Stands rule) : second.Stands rule where
  marked := stands.marked
  slot := stands.slot
  css := stands.css
  sheet := by
    rw [grows.config]
    exact grows.sheet stands.sheet

theorem Consistent.hashed_of_seen {first second : Engine} (consistent : first.Consistent)
    (grows : Grows first second) {hash : UInt64} (seen : hash ∈ first.sheet.seen) :
    ∃ parts ∈ second.hashed, Hash.content parts = hash := by
  obtain ⟨parts, member, same⟩ := consistent.seen hash seen
  exact ⟨parts, grows.hashed member, same⟩

theorem Consistent.answers {first second : Engine} (consistent : first.Consistent)
    (grows : Grows first second) {number : Nat} {key : SelectionKey} {text : String}
    (member : ((number, key), text) ∈ first.memo) : second.Answers number key text :=
  (consistent.memo number key text member).grow grows

/-- The engine is consistent as far as its hashes are apart. -/
def Kept (engine : Engine) : Prop := engine.HashesApart → engine.Consistent

/-- A sorted engine becomes a sorted one that holds no less and stays consistent. -/
def Advances (first second : Engine) : Prop :=
  first.sheet.Sorted → Grows first second ∧ second.sheet.Sorted ∧ (first.Kept → second.Kept)

theorem advances_composes : Composes Advances where
  refl engine sorted := ⟨grows_composes.refl engine, sorted, id⟩
  trans earlier later sorted := by
    obtain ⟨grows, middle, kept⟩ := earlier sorted
    obtain ⟨grows_later, last, kept_later⟩ := later middle
    exact ⟨grows_composes.trans grows grows_later, last, kept_later ∘ kept⟩

/-- A change that leaves the index and the rules of the sheet alone. -/
theorem advances_of_same {first second : Engine} (grows : Grows first second)
    (index : second.index = first.index) (groups : second.sheet.groups = first.sheet.groups)
    (seen : second.sheet.seen = first.sheet.seen)
    (memo : first.HashesApart → first.Consistent → ∀ number key text,
      ((number, key), text) ∈ second.memo → second.Answers number key text) :
    Advances first second := by
  intro sorted
  refine ⟨grows, ?_, ?_⟩
  · intro group
    simpa only [Sheet.group, groups] using sorted group
  · intro kept apart
    have apart_first := grows.apart apart
    have consistent := kept apart_first
    refine ⟨?_, ?_, ?_, ?_, ?_, memo apart_first consistent⟩
    · rw [index, grows.config]
      exact consistent.namePrefix
    · rw [index]
      exact consistent.names
    · rw [index]
      exact consistent.slots
    · rw [index]
      intro rule member
      exact (consistent.stands rule member).grow grows
    · rw [seen]
      intro hash member
      exact consistent.hashed_of_seen grows member

theorem textParts_ne {declaration : AtomicDeclaration} (marked : declaration.Marked)
    (group : SheetGroup) (css : String) : declaration.parts ≠ textParts group css := by
  apply AtomicDeclaration.parts_ne_cons marked _ (by decide)
  rintro ⟨rest, starts⟩
  have letters : "sheet".toList = ['s', 'h', 'e', 'e', 't'] := rfl
  rw [letters] at starts
  exact absurd (List.cons.inj starts).1 (by decide)

theorem mem_hashed_text {engine : Engine} {group : SheetGroup} {css : String}
    (early : group.order < 3) (held : ⟨group, 0, css⟩ ∈ engine.sheet.rules) :
    textParts group css ∈ engine.hashed :=
  List.mem_append_right _ (List.mem_map.mpr
    ⟨⟨group, 0, css⟩, List.mem_filter.mpr ⟨held, decide_eq_true early⟩, rfl⟩)

theorem mem_hashed_rule {engine : Engine} {rule : AtomicRule} (held : rule ∈ engine.index.rules) :
    rule.declaration.parts ∈ engine.hashed :=
  List.mem_append_left _ (List.mem_map.mpr ⟨rule, held, rfl⟩)

theorem advances_text (engine : Engine) {group : SheetGroup} (early : group.order < 3)
    (css : String) :
    Advances engine
      { engine with
        sheet := (engine.sheet.take ⟨group, 0, Hash.content (textParts group css), css⟩).2 } := by
  intro sorted
  have rules := Sheet.mem_rules_take sorted ⟨group, 0, Hash.content (textParts group css), css⟩
  have grows : Grows engine
      { engine with
        sheet := (engine.sheet.take ⟨group, 0, Hash.content (textParts group css), css⟩).2 } :=
    ⟨rfl, rfl, List.Subset.refl _, fun rule held => (rules rule).mpr (.inl held), id⟩
  refine ⟨grows, Sheet.sorted_take sorted _, ?_⟩
  intro kept apart
  have consistent := kept (grows.apart apart)
  refine ⟨consistent.namePrefix, consistent.names, consistent.slots, ?_, ?_, ?_⟩
  · intro rule member
    exact (consistent.stands rule member).grow grows
  · intro hash seen
    rcases (Sheet.mem_seen_take _ hash).mp seen with before | rfl
    · exact consistent.hashed_of_seen grows before
    · by_cases came : Hash.content (textParts group css) ∈ engine.sheet.seen
      · exact consistent.hashed_of_seen grows came
      · exact ⟨_, mem_hashed_text early ((rules _).mpr (.inr ⟨came, rfl⟩)), rfl⟩
  · intro number key text member
    exact consistent.answers grows member

def withDeclaration (engine : Engine) (slot : UInt64) (declaration : AtomicDeclaration) : Engine :=
  { engine with
    index := engine.index.withRule (engine.index.nextRule slot declaration)
    sheet := (engine.sheet.take
      ⟨declaration.group, declaration.rank engine.config.breakpoints, slot,
        (engine.index.nextRule slot declaration).css⟩).2 }

theorem has_withDeclaration (engine : Engine) (slot : UInt64) (declaration : AtomicDeclaration) :
    (engine.withDeclaration slot declaration).Has (engine.index.nextRule slot declaration).className
      declaration :=
  ⟨_, List.mem_cons_self, rfl, rfl⟩

/-- Classes are numbered as they are given out. -/
def Numbered (engine : Engine) : Prop :=
  engine.index.rules.map (·.className) =
    ((List.range engine.index.counter).map (AtomicIndex.classOf engine.index.namePrefix)).reverse

theorem Numbered.withDeclaration {engine : Engine} (numbered : engine.Numbered) (slot : UInt64)
    (declaration : AtomicDeclaration) : (engine.withDeclaration slot declaration).Numbered := by
  rw [Numbered] at numbered
  change _ :: engine.index.rules.map (·.className) = _
  rw [numbered, Engine.withDeclaration, AtomicIndex.withRule]
  simp [List.range_succ, AtomicIndex.nextRule]

/-- Unless hashes collide, a declaration that has no class yet finds the slot of its hash free. -/
theorem Consistent.free {engine after : Engine} (consistent : engine.Consistent)
    (grows : Grows engine after) (apart : after.HashesApart) {declaration : AtomicDeclaration}
    (marked : declaration.Marked) (present : declaration.parts ∈ after.hashed)
    (absent : ∀ rule, engine.index.get? declaration.hash = some rule →
      rule.declaration ≠ declaration) :
    engine.index.get? declaration.hash = none ∧ declaration.hash ∉ engine.sheet.seen := by
  have nowhere : ∀ rule ∈ engine.index.rules, rule.declaration ≠ declaration := by
    rintro rule member rfl
    have slot := (consistent.stands rule member).slot
    exact absent rule (slot ▸ AtomicIndex.get?_of_mem consistent.slots member) rfl
  have unhashed : declaration.parts ∉ engine.hashed := by
    intro member
    rcases List.mem_append.mp member with declared | written
    · obtain ⟨rule, inside, same⟩ := List.mem_map.mp declared
      exact nowhere rule inside
        (AtomicDeclaration.parts_injective (consistent.stands rule inside).marked marked same)
    · obtain ⟨rule, -, same⟩ := List.mem_map.mp written
      exact textParts_ne marked _ _ same.symm
  constructor
  · cases found : engine.index.get? declaration.hash with
    | none => rfl
    | some rule =>
      obtain ⟨inside, slot⟩ := AtomicIndex.slot_of_get? found
      have hashes := (consistent.stands rule inside).slot.symm.trans slot
      have same := apart _ (grows.hashed (mem_hashed_rule inside)) _ present hashes
      exact absurd (same ▸ mem_hashed_rule inside) unhashed
  · intro seen
    obtain ⟨parts, member, hashes⟩ := consistent.seen _ seen
    have same := apart _ (grows.hashed member) _ present hashes
    exact unhashed (same ▸ member)

theorem advances_withDeclaration {engine : Engine} {slot : UInt64} {declaration : AtomicDeclaration}
    (marked : declaration.Marked)
    (free : engine.index.get? declaration.hash = none → slot = declaration.hash)
    (absent : ∀ rule, engine.index.get? declaration.hash = some rule →
      rule.declaration ≠ declaration) :
    Advances engine (engine.withDeclaration slot declaration) := by
  intro sorted
  have rules := Sheet.mem_rules_take sorted
    ⟨declaration.group, declaration.rank engine.config.breakpoints, slot,
      (engine.index.nextRule slot declaration).css⟩
  have grows : Grows engine (engine.withDeclaration slot declaration) :=
    ⟨rfl, rfl, List.subset_cons_self _ _, fun rule held => (rules rule).mpr (.inl held), id⟩
  refine ⟨grows, Sheet.sorted_take sorted _, ?_⟩
  intro kept apart
  have consistent := kept (grows.apart apart)
  have present : declaration.parts ∈ (engine.withDeclaration slot declaration).hashed :=
    List.mem_append_left _ List.mem_cons_self
  obtain ⟨unused, unseen⟩ := consistent.free grows apart marked present absent
  obtain rfl := free unused
  refine ⟨consistent.namePrefix, Numbered.withDeclaration consistent.names _ _, ?_, ?_, ?_, ?_⟩
  · apply List.nodup_cons.mpr
    constructor
    · intro taken
      obtain ⟨rule, inside, same⟩ := List.mem_map.mp taken
      have found := AtomicIndex.get?_of_mem consistent.slots inside
      rw [same] at found
      exact absurd (unused.symm.trans found) (by simp)
    · exact consistent.slots
  · intro rule member
    rcases List.mem_cons.mp member with rfl | old
    · exact ⟨marked, rfl, rfl, (rules _).mpr (.inr ⟨unseen, rfl⟩)⟩
    · exact (consistent.stands rule old).grow grows
  · intro hash seen
    rcases (Sheet.mem_seen_take _ hash).mp seen with before | rfl
    · exact consistent.hashed_of_seen grows before
    · exact ⟨declaration.parts, present, rfl⟩
  · intro number key text member
    exact consistent.answers grows member

end Engine

end AtomicCss
