import AtomicCss.Proofs.Rule.Collapse
import AtomicCss.Proofs.Sheet.Cascade
import AtomicCss.Proofs.Text.ClassName

/-!
Giving classes to declarations.

The texts that are hashed for a declaration can be read back, because no at-rule looks like the bar
that ends the at-rules. An index gives a declaration the class that it has, or the next class.
-/

namespace AtomicCss

namespace AtomicDeclaration

def Marked (declaration : AtomicDeclaration) : Prop :=
  ∀ atRule ∈ declaration.atRules, AtRule.Marked atRule

theorem bar_not_marked : ¬ AtRule.Marked "|" := by
  rintro ⟨rest, starts⟩
  have bar : "|".toList = ['|'] := rfl
  rw [bar] at starts
  have first := (List.cons.inj starts).1
  revert first
  decide

/-- Lists that are told apart by a bar behind their at-rules. -/
theorem append_bar_injective {first second rest others : List String}
    (left : ∀ atRule ∈ first, AtRule.Marked atRule)
    (right : ∀ atRule ∈ second, AtRule.Marked atRule)
    (same : first ++ "|" :: rest = second ++ "|" :: others) : first = second ∧ rest = others := by
  induction first generalizing second with
  | nil =>
    cases second with
    | nil => exact ⟨rfl, (List.cons.inj same).2⟩
    | cons atRule second =>
      have bar : "|" = atRule := (List.cons.inj same).1
      exact absurd (bar ▸ right atRule List.mem_cons_self) bar_not_marked
  | cons atRule first ih =>
    cases second with
    | nil =>
      have bar : atRule = "|" := (List.cons.inj same).1
      exact absurd (bar ▸ left atRule List.mem_cons_self) bar_not_marked
    | cons other second =>
      obtain ⟨head, tail⟩ := List.cons.inj same
      obtain ⟨front, back⟩ := ih (fun text member => left text (List.mem_cons_of_mem _ member))
        (fun text member => right text (List.mem_cons_of_mem _ member)) tail
      exact ⟨by rw [head, front], back⟩

theorem parts_injective {first second : AtomicDeclaration} (left : first.Marked)
    (right : second.Marked) (same : first.parts = second.parts) : first = second := by
  obtain ⟨atRules, rest⟩ := append_bar_injective left right same
  obtain ⟨selector, rest⟩ := List.cons.inj rest
  obtain ⟨property, values⟩ := List.cons.inj rest
  cases first
  cases second
  simp_all

/-- What is hashed for a declaration is hashed for no other text. -/
theorem parts_ne_cons {declaration : AtomicDeclaration} (marked : declaration.Marked)
    {text : String} (rest : List String) (plain : text ≠ "|") (unmarked : ¬ AtRule.Marked text) :
    declaration.parts ≠ text :: rest := by
  unfold parts
  cases atRules : declaration.atRules with
  | nil => exact fun same => plain (List.cons.inj same).1.symm
  | cons atRule others =>
    intro same
    obtain rfl : atRule = text := (List.cons.inj same).1
    apply unmarked
    apply marked
    simp [atRules]

theorem marked_of_mem_collapse {vocabulary : Vocabulary} {mode : FlattenMode} {node : StyleNode}
    {rules : List FlatRule} (flat : flatten vocabulary mode node = .ok rules)
    {declaration : AtomicDeclaration} (member : declaration ∈ collapse rules) :
    declaration.Marked := by
  obtain ⟨rule, inside, here⟩ := exists_rule_of_mem_collapse member
  have same : rule.atRules = declaration.atRules := (Prod.ext_iff.mp here).1
  rw [Marked, ← same]
  exact marked_flatten flat inside

end AtomicDeclaration

namespace AtomicIndex

theorem slot_of_get? {index : AtomicIndex} {slot : UInt64} {rule : AtomicRule}
    (found : index.get? slot = some rule) : rule ∈ index.rules ∧ rule.slot = slot :=
  ⟨List.mem_of_find?_eq_some found, by simpa using List.find?_some found⟩

theorem get?_of_mem {index : AtomicIndex} (distinct : (index.rules.map (·.slot)).Nodup)
    {rule : AtomicRule} (member : rule ∈ index.rules) : index.get? rule.slot = some rule := by
  cases found : index.get? rule.slot with
  | none =>
    have nowhere := List.find?_eq_none.mp found rule member
    simp at nowhere
  | some other =>
    obtain ⟨inside, same⟩ := slot_of_get? found
    rw [List.inj_on_of_nodup_map distinct inside member same]

theorem of_probe {index : AtomicIndex} {declaration : AtomicDeclaration} {rule : AtomicRule}
    {steps : Nat} {slot : UInt64} (found : index.probe declaration steps slot = .inl rule) :
    rule ∈ index.rules ∧ rule.declaration = declaration := by
  induction steps generalizing slot with
  | zero => cases found
  | succ steps ih =>
    rw [probe] at found
    split at found
    · cases found
    · next other there =>
      split at found
      · next same =>
        obtain rfl := Sum.inl.inj found
        exact ⟨(slot_of_get? there).1, same⟩
      · exact ih found

/-- The rule of a declaration that an index gives the next class. -/
def nextRule (index : AtomicIndex) (slot : UInt64) (declaration : AtomicDeclaration) : AtomicRule :=
  ⟨slot, classOf index.namePrefix index.counter, declaration,
    declaration.ruleText (classOf index.namePrefix index.counter)⟩

def withRule (index : AtomicIndex) (rule : AtomicRule) : AtomicIndex :=
  { index with rules := rule :: index.rules, counter := index.counter + 1 }

/-- The ways in which a declaration gets its class. -/
inductive Emitted (index : AtomicIndex) (declaration : AtomicDeclaration) :
    (String × Option AtomicRule) × AtomicIndex → Prop where
  | known {rule} : rule ∈ index.rules → rule.declaration = declaration →
      Emitted index declaration ((rule.className, none), index)
  | next (slot) : (index.get? declaration.hash = none → slot = declaration.hash) →
      (∀ rule, index.get? declaration.hash = some rule → rule.declaration ≠ declaration) →
      Emitted index declaration
        (((index.nextRule slot declaration).className, some (index.nextRule slot declaration)),
          index.withRule (index.nextRule slot declaration))

theorem emitted_emit (index : AtomicIndex) (declaration : AtomicDeclaration) :
    Emitted index declaration (index.emit declaration) := by
  unfold emit emitWith
  cases probed : index.probe declaration (index.size + 1) declaration.hash with
  | inl rule =>
    obtain ⟨member, same⟩ := of_probe probed
    exact .known member same
  | inr slot =>
    rw [probe] at probed
    apply Emitted.next slot
    · intro free
      simp only [free] at probed
      exact (Sum.inr.inj probed).symm
    · intro rule there same
      simp [there, same] at probed

end AtomicIndex

end AtomicCss
