import AtomicCss.Engine.Basic
import AtomicCss.Proofs.Rule.Collapse
import AtomicCss.Proofs.Style.Merge

/-!
What an override decides.

An entry of an override that meets an object with an object of its own merges where that object
stands; every other entry moves behind the entries of the layers below. So the entries that move
decide at the places that they write, and elsewhere the layers below decide together with what
merged into them: what such a merge writes loses to any later entry of the layers below.
-/

namespace AtomicCss

namespace StyleDefinition

/-- An override is laid over what the definition resolves to without it. -/
theorem resolve_override {definition : StyleDefinition} {selection : VariantSelection}
    {breakpoints : List String} {override node : StyleNode}
    (resolved : definition.resolve selection breakpoints (some override) = .ok node) :
    ∃ lower, definition.resolve selection breakpoints none = .ok lower ∧
      node = StyleNode.merge lower override := by
  unfold resolve at resolved ⊢
  obtain ⟨merged, laid, rest⟩ := bind_eq_ok.mp resolved
  cases rest
  exact ⟨_, bind_eq_ok.mpr ⟨merged, laid, rfl⟩, rfl⟩

end StyleDefinition

namespace Engine

/-- An override decides at the places that its moved entries write; elsewhere the layers below
decide together with what merged into them. So it wins everywhere if nothing merges. -/
theorem override_decides {engine : Engine} {definition : StyleDefinition}
    {selection : VariantSelection} {override : StyleNode} {overridden : List AtomicDeclaration}
    {own : List FlatRule} (distinct : override.names.Nodup)
    (resolved : engine.declarations definition selection (some override) = .ok overridden)
    (flat : flatten engine.vocabulary .scoped override = .ok own) :
    ∃ lower standing moved,
      definition.resolve selection engine.config.breakpoints.names none = .ok lower ∧
        flatten engine.vocabulary .scoped (lower.standing override) = .ok standing ∧
        flatten engine.vocabulary .scoped (lower.moved override) = .ok moved ∧
        (∀ declaration, declaration ∈ overridden ↔
          declaration ∈ collapse moved ∨
            (declaration ∈ collapse standing ∧
              ∀ other ∈ collapse moved, other.place ≠ declaration.place)) ∧
        ((∀ entry ∈ override, lower.mergesIn entry.1 entry.2 = false) →
          ∀ declaration ∈ collapse own, declaration ∈ overridden) := by
  obtain ⟨node, found, rest⟩ := bind_eq_ok.mp resolved
  obtain ⟨rules, flattened, collapsed⟩ := bind_eq_ok.mp rest
  obtain rfl : collapse rules = overridden := Except.ok.inj collapsed
  obtain ⟨lower, below, rfl⟩ := StyleDefinition.resolve_override found
  rw [StyleNode.merge_eq_append distinct] at flattened
  obtain ⟨standing, moved, behind, shift, flat_standing, flat_moved, rfl, moves, before⟩ :=
    flatten_append flattened
  have decides := mem_collapse_append moves before
  refine ⟨lower, standing, moved, below, flat_standing, flat_moved, decides, ?_⟩
  intro apart declaration member
  have all : lower.moved override = override := by
    apply List.filter_eq_self.mpr
    intro entry inside
    simp [apart entry inside]
  rw [all, flat] at flat_moved
  cases flat_moved
  exact (decides declaration).mpr (.inl member)

/-- An override that merges into an object loses to a later entry for the same place. -/
theorem override_loses :
    let engine := bare ⟨"", .empty, [], .empty, .empty⟩ false
    let base : StyleNode := [("&", .node [("color", .text "red")]), ("color", .text "blue")]
    let override : StyleNode := [("&", .node [("color", .text "green")])]
    let own : List FlatRule := [⟨[], "&", "color", "green", 0, 1⟩]
    let overridden : List AtomicDeclaration := [⟨[], "&", "color", ["blue"]⟩]
    override.names.Nodup ∧
      engine.declarations ⟨base, [], [], []⟩ [] (some override) = .ok overridden ∧
      flatten engine.vocabulary .scoped override = .ok own ∧
      ¬ (∀ declaration ∈ collapse own, declaration ∈ overridden) ∧
      ∃ lower standing moved,
        StyleDefinition.resolve ⟨base, [], [], []⟩ [] engine.config.breakpoints.names none =
          .ok lower ∧
          flatten engine.vocabulary .scoped (lower.standing override) = .ok standing ∧
          flatten engine.vocabulary .scoped (lower.moved override) = .ok moved ∧
          ∀ declaration, declaration ∈ overridden ↔
            declaration ∈ collapse moved ∨
              (declaration ∈ collapse standing ∧
                ∀ other ∈ collapse moved, other.place ≠ declaration.place) := by
  intro engine base override own overridden
  have distinct : override.names.Nodup := by decide
  have resolved : engine.declarations ⟨base, [], [], []⟩ [] (some override) = .ok overridden := by
    decide +kernel
  have flat : flatten engine.vocabulary .scoped override = .ok own := by decide +kernel
  obtain ⟨lower, standing, moved, below, stands, moves, decides, -⟩ :=
    override_decides distinct resolved flat
  exact ⟨distinct, resolved, flat, by decide, lower, standing, moved, below, stands, moves, decides⟩

end Engine

end AtomicCss
