import AtomicCss.Proofs.Engine.Operations
import AtomicCss.Proofs.Style.Merge

/-!
Definitions compose part by part.

A composition starts from nothing and lays each part over those before it. Each step keeps the keys,
the groups and the defaults distinct, and a definition with distinct names laid over nothing is
itself. So a composition can stop and resume: the parts so far count as one part, and a component
that is extended again has the definition that all its parts compose at once.
-/

namespace AtomicCss

namespace Keyed

variable {α : Type}

/-- Lays entries over others in turn, each where its name stands or at the end. -/
def layAll (lay : Option α → α → α) (entries incoming : Keyed α) : Keyed α :=
  incoming.foldl (fun entries (name, value) =>
    entries.set name (lay (entries.get? name) value)) entries

theorem layAll_cons (lay : Option α → α → α) (entries : Keyed α) (entry : String × α)
    (rest : Keyed α) :
    layAll lay entries (entry :: rest) =
      layAll lay (entries.set entry.1 (lay (entries.get? entry.1) entry.2)) rest := rfl

theorem nodup_layAll (lay : Option α → α → α) {entries : Keyed α} (distinct : entries.names.Nodup)
    (incoming : Keyed α) : (layAll lay entries incoming).names.Nodup := by
  induction incoming generalizing entries with
  | nil => exact distinct
  | cons entry rest ih =>
    rw [layAll_cons]
    exact ih (nodup_set distinct _ _)

theorem set_of_get?_none {entries : Keyed α} {name : String} (absent : entries.get? name = none)
    (value : α) : entries.set name value = entries ++ [(name, value)] := by
  induction entries with
  | nil => rfl
  | cons entry rest ih =>
    by_cases here : entry.1 = name
    · simp [get?, here] at absent
    · rw [get?, if_neg here] at absent
      rw [set, if_neg here, ih absent, List.cons_append]

/-- Entries with names of their own are laid behind those that are there. -/
theorem layAll_append {lay : Option α → α → α} (fresh : ∀ value, lay none value = value)
    {entries incoming : Keyed α} (distinct : (entries ++ incoming).names.Nodup) :
    layAll lay entries incoming = entries ++ incoming := by
  induction incoming generalizing entries with
  | nil => exact (List.append_nil entries).symm
  | cons entry rest ih =>
    have absent : entries.get? entry.1 = none := by
      apply get?_eq_none_iff.mpr
      intro member
      rw [names, List.map_append, List.map_cons] at distinct
      exact (List.nodup_append.mp distinct).2.2 _ member _ List.mem_cons_self rfl
    rw [layAll_cons, absent, fresh, set_of_get?_none absent, ih]
    · exact List.append_assoc entries [entry] rest
    · rwa [List.append_assoc]

theorem layAll_nil_left {lay : Option α → α → α} (fresh : ∀ value, lay none value = value)
    {incoming : Keyed α} (distinct : incoming.names.Nodup) : layAll lay [] incoming = incoming :=
  layAll_append fresh distinct

theorem ofList_of_nodup {entries : Keyed α} (distinct : entries.names.Nodup) :
    ofList entries = entries :=
  @layAll_nil_left α (fun _ value => value) (fun _ => rfl) entries distinct

/-- What holds of all values, and of what is laid over one of them or over nothing, holds of all
laid entries. -/
theorem forall_layAll {lay : Option α → α → α} (Holds : α → Prop) {entries incoming : Keyed α}
    (fresh : ∀ value, Holds value → Holds (lay none value))
    (laid : ∀ current value, Holds current → Holds value → Holds (lay (some current) value))
    (own : ∀ entry ∈ entries, Holds entry.2) (each : ∀ entry ∈ incoming, Holds entry.2) :
    ∀ entry ∈ layAll lay entries incoming, Holds entry.2 := by
  induction incoming generalizing entries with
  | nil => exact own
  | cons entry rest ih =>
    obtain ⟨here, later⟩ := List.forall_mem_cons.mp each
    rw [layAll_cons]
    apply ih _ later
    intro other member
    rcases mem_set member with old | rfl
    · exact own other old
    · cases held : entries.get? entry.1 with
      | none => exact fresh _ here
      | some current => exact laid _ _ (own _ (mem_of_get? held)) here

end Keyed

namespace StyleDefinition

/-- The values of a group laid over those that it has. -/
def layValues : Option (Keyed StyleNode) → Keyed StyleNode → Keyed StyleNode
  | some current, values => mergeValues current values
  | none, values => values

theorem mergeGroups_eq_layAll (groups incoming : Keyed (Keyed StyleNode)) :
    mergeGroups groups incoming = Keyed.layAll layValues groups incoming := by
  unfold mergeGroups Keyed.layAll
  congr 1
  funext groups ⟨group, values⟩
  cases held : groups.get? group <;> simp [held, layValues]

/-- A definition that names each key of its base, each group and each default once. -/
structure NamesOnce (definition : StyleDefinition) : Prop where
  base : definition.base.names.Nodup
  groups : definition.groups.names.Nodup
  defaults : definition.defaults.names.Nodup

theorem namesOnce_empty : empty.NamesOnce := ⟨List.nodup_nil, List.nodup_nil, List.nodup_nil⟩

variable {composed part : StyleDefinition}

/-- Distinct names stay distinct, whatever is laid over them. -/
theorem NamesOnce.mergeWith (once : composed.NamesOnce) (part : StyleDefinition) :
    (composed.mergeWith part).NamesOnce where
  base := StyleNode.nodup_merge once.base part.base
  groups := by
    rw [StyleDefinition.mergeWith, mergeGroups_eq_layAll]
    exact Keyed.nodup_layAll layValues once.groups part.groups
  defaults := Keyed.nodup_layAll (fun _ value => value) once.defaults part.defaults

theorem namesOnce_foldl_mergeWith (once : composed.NamesOnce) (parts : List StyleDefinition) :
    (parts.foldl StyleDefinition.mergeWith composed).NamesOnce := by
  induction parts generalizing composed with
  | nil => exact once
  | cons part rest ih => exact ih (once.mergeWith part)

theorem namesOnce_compose (parts : List StyleDefinition) : (compose parts).NamesOnce :=
  namesOnce_foldl_mergeWith namesOnce_empty parts

/-- A definition with distinct names is itself when it is laid over nothing. -/
theorem NamesOnce.mergeWith_empty (once : part.NamesOnce) : empty.mergeWith part = part := by
  have base : StyleNode.merge [] part.base = part.base := StyleNode.merge_nil_left once.base
  have groups : mergeGroups [] part.groups = part.groups := by
    rw [mergeGroups_eq_layAll]
    exact Keyed.layAll_nil_left (fun _ => rfl) once.groups
  have defaults : Keyed.layAll (fun _ value => value) [] part.defaults = part.defaults :=
    Keyed.layAll_nil_left (fun _ => rfl) once.defaults
  rw [StyleDefinition.mergeWith, empty, base, groups, List.nil_append]
  exact congrArg (StyleDefinition.mk _ _ _) defaults

/-- The parts composed so far count as one part. -/
theorem compose_append (parts more : List StyleDefinition) :
    compose (parts ++ more) = compose (compose parts :: more) := by
  calc
    compose (parts ++ more) = more.foldl StyleDefinition.mergeWith (compose parts) :=
      List.foldl_append
    _ = more.foldl StyleDefinition.mergeWith (empty.mergeWith (compose parts)) := by
      rw [(namesOnce_compose parts).mergeWith_empty]

end StyleDefinition

namespace Engine

variable {engine after : Engine}

theorem compile_eq_ok {definition : StyleDefinition} {style : CompiledStyle}
    (compiled : engine.compile definition = (.ok style, after)) :
    style.definition = definition := by
  unfold compile at compiled
  split at compiled <;> cases compiled
  rfl

theorem cssComposed_eq_compile {node : StyleNode} {own : StyleDefinition}
    (parsed : StyleDefinition.parse node = .ok own) (parts : List CompiledStyle) :
    engine.cssComposed parts node = engine.compile
      (.compose (parts.map (·.definition) ++ [own])) := by
  simp only [cssComposed, parsed]

theorem cssComposed_eq_ok {parts : List CompiledStyle} {node : StyleNode} {style : CompiledStyle}
    (composed : engine.cssComposed parts node = (.ok style, after)) :
    ∃ own, StyleDefinition.parse node = .ok own ∧
      style.definition = .compose (parts.map (·.definition) ++ [own]) := by
  cases parsed : StyleDefinition.parse node with
  | error error => simp [cssComposed, parsed] at composed
  | ok own =>
    rw [cssComposed_eq_compile parsed] at composed
    exact ⟨own, rfl, compile_eq_ok composed⟩

theorem extend_eq_ok {component extended : Component} {node : StyleNode}
    (extends_to : engine.extend component node = (.ok extended, after)) :
    ∃ own, StyleDefinition.parse node = .ok own ∧
      extended.style.definition = .compose [component.style.definition, own] := by
  rw [extend_eq] at extends_to
  obtain ⟨told, -⟩ := told_eq extends_to
  obtain ⟨style, composed, rfl⟩ := ok_of_map_eq_ok told
  exact cssComposed_eq_ok (Prod.ext composed rfl)

/-- Composition can stop anywhere and resume with what is composed so far. So a component that is
extended again, on whatever engine, comes to the component with both extensions composed at once. -/
theorem compose_resumes :
    (∀ parts more : List StyleDefinition,
        StyleDefinition.compose (parts ++ more) =
          StyleDefinition.compose (StyleDefinition.compose parts :: more)) ∧
      ∀ (engine after : Engine) (component extended : Component) (first : StyleNode),
        engine.extend component first = (.ok extended, after) →
          ∃ own, StyleDefinition.parse first = .ok own ∧
            (∀ (later last : Engine) (second : StyleNode) (twice : Component),
              later.extend extended second = (.ok twice, last) →
                ∃ other, StyleDefinition.parse second = .ok other ∧
                  twice.style.definition = .compose [component.style.definition, own, other]) ∧
            ∀ (later : Engine) (second : StyleNode) (piece : CompiledStyle),
            piece.definition = own →
              later.cssComposed [extended.style] second =
                later.cssComposed [component.style, piece] second := by
  refine ⟨StyleDefinition.compose_append, ?_⟩
  intro engine after component extended first extended_once
  obtain ⟨own, parsed, definition⟩ := extend_eq_ok extended_once
  have resumes (other : StyleDefinition) :
      StyleDefinition.compose [extended.style.definition, other] =
        .compose [component.style.definition, own, other] := by
    rw [definition]
    exact (StyleDefinition.compose_append [component.style.definition, own] [other]).symm
  refine ⟨own, parsed, ?_, ?_⟩
  · intro later last second twice extended_twice
    obtain ⟨other, parsed_other, whole⟩ := extend_eq_ok extended_twice
    exact ⟨other, parsed_other, whole.trans (resumes other)⟩
  · rintro later second piece rfl
    cases parsed_other : StyleDefinition.parse second with
    | error error => simp only [cssComposed, parsed_other]
    | ok other =>
      rw [cssComposed_eq_compile parsed_other, cssComposed_eq_compile parsed_other]
      exact congrArg later.compile (resumes other)

/-- A button whose first extension adds a size and makes it the default, and whose second one
changes the size that was there before. -/
theorem compose_resumes_button :
    let engine := bare ⟨"", .empty, [], .empty, .empty⟩ false
    let component : Component := ⟨"button", 0, [("color", .text "red")],
      [("size", [("sm", [("top", .text "0")])])], [], [("size", "sm")]⟩
    let first : StyleNode :=
      [("variants", .node [("size", .node [("lg", .node [("top", .text "1px")])])]),
      ("defaultVariants", .node [("size", .text "lg")])]
    let second : StyleNode := [("color", .text "blue"),
      ("variants", .node [("size", .node [("sm", .node [("left", .text "0")])])])]
    let own : StyleDefinition :=
      ⟨[], [("size", [("lg", [("top", .text "1px")])])], [], [("size", "lg")]⟩
    let other : StyleDefinition :=
      ⟨[("color", .text "blue")], [("size", [("sm", [("left", .text "0")])])], [], []⟩
    StyleDefinition.parse first = .ok own ∧ StyleDefinition.parse second = .ok other ∧
      ∃ extended after twice last,
        engine.extend component first = (.ok extended, after) ∧
          after.extend extended second = (.ok twice, last) ∧
          twice.style.definition = .compose [component.style.definition, own, other] ∧
          twice.style.definition = ⟨[("color", .text "blue")],
            [("size",
              [("sm", [("top", .text "0"), ("left", .text "0")]), ("lg", [("top", .text "1px")])])],
            [], [("size", "lg")]⟩ ∧
          after.cssComposed [extended.style] second =
            after.cssComposed [component.style, ⟨1, own⟩] second := by
  intro engine component first second own other
  have parsed : StyleDefinition.parse first = .ok own := rfl
  have parsed_other : StyleDefinition.parse second = .ok other := rfl
  have evaluated : (engine.extend component first).1.toOption.any (fun extended =>
      ((engine.extend component first).2.extend extended second).1.toOption.isSome) = true := by
    decide +kernel
  cases once : engine.extend component first with
  | mk result after =>
    cases result with
    | error error => simp [once, Except.toOption] at evaluated
    | ok extended =>
      cases again : after.extend extended second with
      | mk result last =>
        cases result with
        | error error => simp [once, again, Except.toOption] at evaluated
        | ok twice =>
          obtain ⟨_, read, composed, resumed⟩ :=
            compose_resumes.2 engine after component extended first once
          obtain rfl := Except.ok.inj (read.symm.trans parsed)
          obtain ⟨_, read_other, whole⟩ := composed after last second twice again
          obtain rfl := Except.ok.inj (read_other.symm.trans parsed_other)
          exact ⟨parsed, parsed_other, extended, after, twice, last, rfl, again, whole,
            whole.trans rfl, resumed after second ⟨1, own⟩ rfl⟩

end Engine

end AtomicCss
