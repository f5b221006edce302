import AtomicCss.Proofs.Engine.Compilation
import AtomicCss.Proofs.Rule.Collapse
import AtomicCss.Proofs.Rule.MediaQuery
import AtomicCss.Proofs.Rule.Wrapping
import AtomicCss.Proofs.Variant.Branches

/-!
What a breakpoint of a configuration comes to, from the selection that asks for it to the rules.

A selection names a breakpoint by its key, a style object holds the branch under that key, and the
rules of the branch stand inside the at-rule of the key. The ranks agree all along; the at-rule is
the media query of the breakpoint unless the name starts with `@`, since the key then loses more
than its own mark.
-/

namespace AtomicCss

open Flatten

/-- A declaration that is shown in the media query of a breakpoint, and ranks no lower. -/
def AtomicDeclaration.InMedia (breakpoints : Breakpoints) (query : String) (rank : Nat)
    (declaration : AtomicDeclaration) : Prop :=
  ∃ inner, declaration.atRules = (AtRule.mediaPrefix ++ query) :: inner ∧
    declaration.group = .conditional ∧
    declaration.rank breakpoints = max rank (AtRule.conditionalRank breakpoints inner) ∧
    ∀ className, declaration.ruleText className =
      AtRule.block (AtRule.mediaPrefix ++ Text.trim query)
        ({ declaration with atRules := inner }.ruleText className)

theorem StyleDefinition.breakpointRank?_key {breakpoints : Breakpoints} {index : Nat}
    {name query : String} (distinct : breakpoints.names.Nodup)
    (declared : breakpoints[index]? = some (name, query)) (unreserved : name ≠ "initial") :
    breakpointRank? breakpoints.names ("@" ++ name) = some (index + 1) := by
  have other : "@" ++ name ≠ VariantValue.initialKey := by
    intro same
    exact unreserved (String.append_right_inj "@" |>.mp same)
  have found := findIdx?_of_nodup distinct declared
  simp [breakpointRank?, other, Text.stripPrefix?_append, Breakpoints.names, List.findIdx?_map,
    Function.comp_def, found]

theorem Flatten.exists_inner_of_mem {vocabulary : Vocabulary} {atRule : String}
    {blocks : List StyleNode} {parts : List (List FlatRule)}
    (inside : List.Forall₂ (WrittenInside vocabulary [atRule]) blocks parts) {rule : FlatRule}
    (member : rule ∈ parts.flatten) : ∃ inner, rule.atRules = atRule :: inner := by
  obtain ⟨part, among, within⟩ := List.mem_flatten.mp member
  obtain ⟨block, -, rules, shift, -, wrapped⟩ := exists_left_of_forall₂ inside among
  obtain ⟨own, -, same⟩ := exists_left_of_forall₂ wrapped within
  exact ⟨own.atRules, by rw [same]; rfl⟩

section

variable {breakpoints : Breakpoints} {index : Nat} {name query : String} {inner : List String}

theorem AtomicDeclaration.inMedia_of_atRules (apart : (breakpoints.map (·.2)).Nodup)
    (declared : breakpoints[index]? = some (name, query)) (shown : Text.allBlank query = false)
    {declaration : AtomicDeclaration}
    (starts : declaration.atRules = (AtRule.mediaPrefix ++ query) :: inner) :
    declaration.InMedia breakpoints query (index + 1) := by
  have group : declaration.group = .conditional := by
    simp [AtomicDeclaration.group, starts]
  refine ⟨inner, starts, group, ?_, ?_⟩
  · rw [AtomicDeclaration.rank, group, starts, AtRule.conditionalRank_cons,
      AtRule.conditionalRank_media apart declared]
  · intro className
    rw [AtomicDeclaration.ruleText, starts, AtRule.wrap, List.foldr_cons, AtRule.header_media shown]
    rfl

/-- A rule inside a media query leads to a declaration that is shown in it. -/
theorem exists_inMedia_of_mem (apart : (breakpoints.map (·.2)).Nodup)
    (declared : breakpoints[index]? = some (name, query)) (shown : Text.allBlank query = false)
    {rules : List FlatRule} {rule : FlatRule} (member : rule ∈ rules)
    (starts : rule.atRules = (AtRule.mediaPrefix ++ query) :: inner) :
    ∃ declaration ∈ collapse rules, declaration.place = rule.place ∧
      declaration.InMedia breakpoints query (index + 1) := by
  obtain ⟨declaration, collapsed, place⟩ :=
    List.mem_map.mp (mem_places_collapse.mpr ⟨rule, member, rfl⟩)
  have at_rules : declaration.atRules = rule.atRules := (Prod.ext_iff.mp place).1
  exact ⟨declaration, collapsed, place,
    AtomicDeclaration.inMedia_of_atRules apart declared shown (at_rules.trans starts)⟩

end

namespace Config

/-- The ranks of a breakpoint agree. Every branch that is asked for at it stands under its key and
writes its rules inside the at-rule of the key; this is the media query of the breakpoint, and the
rules rank as the breakpoint does, exactly if the name does not start with one more `@`. -/
theorem breakpoints_agree {config : Config} {index : Nat} {name query : String}
    (valid : config.validate = .ok config) (apart : (config.breakpoints.map (·.2)).Nodup)
    (declared : config.breakpoints[index]? = some (name, query)) :
    StyleDefinition.breakpointRank? config.breakpoints.names ("@" ++ name) = some (index + 1) ∧
      AtRule.conditionalRank config.breakpoints [AtRule.mediaPrefix ++ query] = index + 1 ∧
      (AtRule.ofKey config.breakpoints ("@" ++ name) = AtRule.mediaPrefix ++ query ↔
        Text.hasPrefix "@" name = false) ∧
      ∀ {definition : StyleDefinition} {selection : VariantSelection} {override : Option StyleNode}
        {group value : String} {values : Keyed StyleNode} {asked : List (String × String)}
        {node : StyleNode}, (group, values) ∈ definition.groups →
        Keyed.get? selection group = some (.responsive asked) → ("@" ++ name, value) ∈ asked →
        definition.resolve selection config.breakpoints.names override = .ok node →
        ∃ chosen style held, definition.variantNode group values value = .ok (chosen, style) ∧
          ("@" ++ name, held) ∈ node ∧ definition.Overlaid override ("@" ++ name) style held ∧
          ∀ theme,
            (config.Templates → override = none → (∀ layer ∈ definition.layers,
                ∃ rules, flatten (config.vocabulary theme) .scoped layer.2 = .ok rules) →
              ∃ rules, flatten (config.vocabulary theme) .scoped node = .ok rules) ∧
            ∀ rules, flatten (config.vocabulary theme) .scoped node = .ok rules →
              ∃ before parts after, rules = before ++ parts.flatten ++ after ∧
                List.Forall₂ (WrittenInside (config.vocabulary theme)
                  [AtRule.ofKey config.breakpoints ("@" ++ name)]) held.blocks parts ∧
                (Text.hasPrefix "@" name = false → ∀ rule ∈ parts.flatten,
                  ∃ declaration ∈ collapse rules, declaration.place = rule.place ∧
                    declaration.InMedia config.breakpoints query (index + 1)) := by
  obtain ⟨-, -, checked, -⟩ := validate_eq_ok.mp valid
  obtain ⟨each, distinct⟩ := checkBreakpoints_eq_ok.mp checked
  have member : (name, query) ∈ config.breakpoints := List.mem_of_getElem? declared
  have breakpoint := (each _ member).1
  have ranked := StyleDefinition.breakpointRank?_key distinct declared breakpoint.unreserved
  have agrees := AtRule.ofKey_eq_media_iff breakpoint.name distinct apart member
  refine ⟨ranked, AtRule.conditionalRank_media apart declared, agrees, ?_⟩
  intro definition selection override group value values asked node grouped asks branch resolved
  obtain ⟨chosen, style, found, held, stands, overlaid⟩ :=
    StyleDefinition.holds_of_resolve grouped asks branch ranked resolved
  refine ⟨chosen, style, held, found, stands, overlaid, ?_⟩
  intro theme
  have free (key : String) (marked : Text.hasPrefix "@" key = true) :
      (config.vocabulary theme).utilities.get? key = none :=
    get?_utilities_of_validate valid marked
  refine ⟨?_, ?_⟩
  · intro templates plain layers
    have templates : (config.vocabulary theme).Templates := templates
    exact flatten_of_layers templates free layers (plain ▸ resolved)
  intro rules flat
  have marked := StyleDefinition.hasPrefix_of_breakpointRank? ranked
  obtain ⟨before, parts, after, split, inside⟩ := flatten_atRule marked (free _ marked) stands flat
  refine ⟨before, parts, after, split, inside, ?_⟩
  intro unmarked rule written
  have among : rule ∈ rules := by
    rw [split]
    exact List.mem_append_left _ (List.mem_append_right _ written)
  obtain ⟨inner, starts⟩ := exists_inner_of_mem inside written
  have in_query : rule.atRules = (AtRule.mediaPrefix ++ query) :: inner :=
    starts.trans (congrArg (· :: inner) (agrees.mpr unmarked))
  exact exists_inMedia_of_mem apart declared breakpoint.shown among in_query

/-- The key of a breakpoint whose name starts with `@` has a rank, but its branch is not in the
media query. -/
theorem breakpoint_of_marked_name :
    let config : Config := ⟨"", .empty, [("@x", "(min-width: 1px)")], .empty, .empty⟩
    let values : Keyed StyleNode := [("lg", [("color", .text "red")])]
    let definition : StyleDefinition := ⟨[], [("size", values)], [], []⟩
    let asked : List (String × String) := [("@@x", "lg")]
    let node : StyleNode := [("@@x", .node [("color", .text "red")])]
    config.validate = .ok config ∧ (config.breakpoints.map (·.2)).Nodup ∧
      StyleDefinition.breakpointRank? config.breakpoints.names "@@x" = some 1 ∧
      AtRule.conditionalRank config.breakpoints ["@media (min-width: 1px)"] = 1 ∧
      AtRule.ofKey config.breakpoints "@@x" ≠ "@media (min-width: 1px)" ∧
      definition.resolve [("size", .responsive asked)] config.breakpoints.names none = .ok node ∧
      flatten (config.vocabulary config.defaultTheme) .scoped node =
        .ok [⟨["@@x"], "&", "color", "red", 0, 1⟩] ∧
      ∃ chosen style held, definition.variantNode "size" values "lg" = .ok (chosen, style) ∧
        ("@@x", held) ∈ node ∧ definition.Overlaid none "@@x" style held := by
  intro config values definition asked node
  have valid : config.validate = .ok config :=
    validate_eq_ok.mpr ⟨rfl, rfl, rfl, List.forall_mem_nil _, rfl⟩
  have apart : (config.breakpoints.map (·.2)).Nodup := by decide
  have resolved : definition.resolve [("size", .responsive asked)] config.breakpoints.names none =
      .ok node := by
    have rank : StyleDefinition.breakpointRank? config.breakpoints.names "@@x" = some 1 := by decide
    simp [definition, values, asked, node, StyleDefinition.resolve, StyleDefinition.layGroup,
      StyleDefinition.branches, rank, StyleDefinition.variantNode, Keyed.get?, Bind.bind,
      Except.bind, pure, Except.pure, StyleDefinition.layBranch, StyleDefinition.Merged.lay,
      StyleNode.merge, StyleNode.mergeEntry, StyleNode.moveLast, Keyed.erase]
  have flat : flatten (config.vocabulary config.defaultTheme) .scoped node =
      .ok [⟨["@@x"], "&", "color", "red", 0, 1⟩] := by
    decide +kernel
  obtain ⟨ranked, highest, agrees, branches⟩ :=
    breakpoints_agree valid apart
      (show config.breakpoints[0]? = some ("@x", "(min-width: 1px)") from rfl)
  obtain ⟨chosen, style, held, found, stands, overlaid, -⟩ :=
    branches (List.mem_singleton_self _) rfl (List.mem_singleton_self _) resolved
  exact ⟨valid, apart, ranked, highest, mt agrees.mp (by decide), resolved, flat, chosen,
    style, held, found, stands, overlaid⟩

end Config

end AtomicCss
