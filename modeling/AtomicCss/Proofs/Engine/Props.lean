import AtomicCss.Proofs.Engine.Operations
import AtomicCss.Proofs.Keyed
import Mathlib.Data.List.Induction

/-!
What becomes of the props of a component.

Each prop is read alone: by its name it says the element, the override or the class of the caller,
chooses the value of a variant group, or is forwarded. The names of the first three stay reserved
where a style declares groups of these names. So without repeated names the props are split into
five parts, and what is forwarded has no effect.
-/

namespace AtomicCss

theorem Keyed.get?_concat {α : Type} (entries : Keyed α) (key : String) (value : α)
    (name : String) :
    get? (entries ++ [(key, value)]) name = (get? entries name).or
      (if key = name then some value else none) := by
  rw [Keyed.get?_append_eq_or]
  rfl

theorem VariantSelection.ofJson_concat (props : List (String × Json)) (key : String)
    (value : Json) :
    ofJson (props ++ [(key, value)]) =
      ofJson props >>= fun selection => do
        return selection.set key (← VariantValue.ofJson key value) := by
  rw [ofJson, List.foldlM_append]
  simp only [List.foldlM_cons, List.foldlM_nil, bind_pure]
  rfl

namespace Component

/-- The names of props that are read alike whatever groups a style declares. -/
def reserved : List String := ["as", "css", "className"]

def isVariant (definition : StyleDefinition) (key : String) : Bool :=
  (definition.group? key).isSome && !reserved.contains key

def isForwarded (definition : StyleDefinition) (key : String) : Bool :=
  (definition.group? key).isNone && !reserved.contains key

/-- The five parts of props and what each of them says. -/
structure Splits (component : Component) (props : List (String × Json)) (reading : Reading) :
    Prop where
  element : (Keyed.get? props "as").elim (some component.element) Json.text? = some reading.element
  selection :
    VariantSelection.ofJson (props.filter fun prop => isVariant component.style.definition prop.1) =
    .ok reading.selection
  override :
    (Keyed.get? props "css").elim (.ok none) (fun value => (StyleNode.ofJson value).map some) =
    .ok reading.override
  extraClass :
    (Keyed.get? props "className").elim (some "") (fun value => value.text?.map Text.trim) =
    some reading.extraClass
  forwarded : reading.forwarded = props.filter fun prop =>
    isForwarded component.style.definition prop.1

theorem splits_iff {component : Component} {props : List (String × Json)} {element : String}
    {selection : VariantSelection} {override : Option StyleNode} {extraClass : String}
    {forwarded : List (String × Json)} :
    component.Splits props ⟨element, selection, override, extraClass, forwarded⟩ ↔
      (Keyed.get? props "as").elim (some component.element) Json.text? = some element ∧
        VariantSelection.ofJson
          (props.filter fun prop => isVariant component.style.definition prop.1) = .ok selection ∧
        (Keyed.get? props "css").elim (.ok none) (fun value => (StyleNode.ofJson value).map some) =
          .ok override ∧
        (Keyed.get? props "className").elim (some "") (fun value => value.text?.map Text.trim) =
          some extraClass ∧
        forwarded = props.filter fun prop => isForwarded component.style.definition prop.1 :=
  ⟨fun ⟨element, selection, override, extraClass, forwarded⟩ =>
    ⟨element, selection, override, extraClass, forwarded⟩,
   fun ⟨element, selection, override, extraClass, forwarded⟩ =>
    ⟨element, selection, override, extraClass, forwarded⟩⟩

section Add

variable {definition : StyleDefinition} {reading next : Reading} {key : String} {value : Json}

theorem add_as_eq_ok : reading.add definition "as" value = .ok next ↔
    ∃ element, value.text? = some element ∧ next = { reading with element } := by
  simp only [Reading.add]
  cases value.text? <;> simp [eq_comm]

theorem add_css_eq_ok : reading.add definition "css" value = .ok next ↔
    ∃ node, StyleNode.ofJson value = .ok node ∧ next = { reading with override := some node } := by
  simp only [Reading.add]
  rw [bind_eq_ok]
  simp [pure, Except.pure, eq_comm]

theorem add_className_eq_ok : reading.add definition "className" value = .ok next ↔
    ∃ text, value.text? = some text ∧ next = { reading with extraClass := Text.trim text } := by
  simp only [Reading.add]
  cases value.text? <;> simp [eq_comm]

/-- Only the groups of the style tell other props apart. -/
theorem add_of_unreserved (other : key ∉ reserved) : reading.add definition key value =
    if (definition.group? key).isSome then do
      let chosen ← VariantValue.ofJson key value
      return { reading with selection := Keyed.set reading.selection key chosen }
    else .ok { reading with forwarded := reading.forwarded ++ [(key, value)] } := by
  unfold Reading.add
  split
  · simp [reserved] at other
  · simp [reserved] at other
  · simp [reserved] at other
  · split <;> next found => simp [found]

theorem add_variant_eq_ok (variant : isVariant definition key = true) :
    reading.add definition key value = .ok next ↔
      ∃ chosen, VariantValue.ofJson key value = .ok chosen ∧
      next = { reading with selection := Keyed.set reading.selection key chosen } := by
  simp only [isVariant, Bool.and_eq_true, Bool.not_eq_true', List.contains_eq_mem,
    decide_eq_false_iff_not]
    at variant
  rw [add_of_unreserved variant.2, if_pos variant.1, bind_eq_ok]
  simp [pure, Except.pure, eq_comm]

theorem add_forwarded (forwarded : isForwarded definition key = true) :
    reading.add definition key value =
      .ok { reading with forwarded := reading.forwarded ++ [(key, value)] } := by
  simp only [isForwarded, Bool.and_eq_true, Bool.not_eq_true', List.contains_eq_mem,
    decide_eq_false_iff_not, Option.isNone_iff_eq_none] at forwarded
  rw [add_of_unreserved forwarded.2, forwarded.1]
  rfl

/-- What is forwarded already makes no difference to a prop that is read. -/
theorem add_withForwarded (consumed : isForwarded definition key = false)
    (forwarded : List (String × Json)) :
    Reading.add definition { reading with forwarded } key value =
      (reading.add definition key value).map fun next => { next with forwarded } := by
  unfold Reading.add
  split
  · split <;> rfl
  · cases StyleNode.ofJson value <;> rfl
  · split <;> rfl
  · next no_element no_override no_class =>
    cases found : definition.group? key with
    | none =>
      simp only [isForwarded, found, reserved, Option.isNone_none, Bool.true_and,
        Bool.not_eq_false', List.contains_eq_mem, List.mem_cons, List.not_mem_nil, or_false,
        decide_eq_true_eq] at consumed
      rcases consumed with here | here | here
      · exact (no_element here).elim
      · exact (no_override here).elim
      · exact (no_class here).elim
    | some values => cases VariantValue.ofJson key value <;> rfl

end Add

section Read

variable {component : Component} {props : List (String × Json)} {reading next : Reading}
  {key : String}
  {value : Json}

theorem read_concat (component : Component) (props : List (String × Json)) (key : String)
    (value : Json) :
    component.read (props ++ [(key, value)]) =
      component.read props >>= fun reading => reading.add component.style.definition key value := by
  rw [read, List.foldlM_append]
  simp [read]

theorem get?_new (fresh : key ∉ props.map (·.1)) (value : Json) :
    Keyed.get? props key = none ∧ Keyed.get? (props ++ [(key, value)]) key = some value := by
  have absent : Keyed.get? props key = none := Keyed.get?_eq_none_iff.mpr fresh
  rw [Keyed.get?_concat, absent, if_pos rfl]
  exact ⟨rfl, rfl⟩

theorem get?_other {name : String} (other : key ≠ name) (props : List (String × Json))
    (value : Json) :
    Keyed.get? (props ++ [(key, value)]) name = Keyed.get? props name := by
  rw [Keyed.get?_concat, if_neg other, Option.or_none]

theorem filter_concat (keep : String → Bool) (props : List (String × Json)) (key : String)
    (value : Json) :
    (props ++ [(key, value)]).filter (fun prop => keep prop.1) =
      (props.filter fun prop => keep prop.1) ++ if keep key then [(key, value)] else [] := by
  rw [List.filter_append, List.filter_singleton]
  cases keep key <;> rfl

theorem parts_of_reserved (definition : StyleDefinition) (listed : key ∈ reserved) :
    isVariant definition key = false ∧ isForwarded definition key = false := by
  simp [isVariant, isForwarded, listed]

theorem splits_concat_as (fresh : "as" ∉ props.map (·.1)) :
    component.Splits (props ++ [("as", value)]) next ↔
      ∃ reading, component.Splits props reading ∧
        reading.add component.style.definition "as" value = .ok next := by
  obtain ⟨absent, found⟩ := get?_new fresh value
  obtain ⟨element, selection, override, extraClass, forwarded⟩ := next
  have plain := parts_of_reserved component.style.definition (show "as" ∈ reserved by decide)
  simp only [splits_iff, found, get?_other, ne_eq, String.reduceEq, not_false_eq_true,
    filter_concat, plain, Bool.false_eq_true, if_false, List.append_nil, add_as_eq_ok,
    Option.elim_some]
  constructor
  · rintro ⟨text, others⟩
    have start : (Keyed.get? props "as").elim (some component.element) Json.text? =
        some component.element := by rw [absent]; rfl
    exact ⟨⟨component.element, selection, override, extraClass, forwarded⟩,
      splits_iff.mpr ⟨start, others⟩, element, text, rfl⟩
  · rintro ⟨⟨_, _, _, _, _⟩, parts, own, text, same⟩
    cases same
    exact ⟨text, (splits_iff.mp parts).2⟩

theorem splits_concat_css (fresh : "css" ∉ props.map (·.1)) :
    component.Splits (props ++ [("css", value)]) next ↔
      ∃ reading, component.Splits props reading ∧
        reading.add component.style.definition "css" value = .ok next := by
  obtain ⟨absent, found⟩ := get?_new fresh value
  obtain ⟨element, selection, override, extraClass, forwarded⟩ := next
  have plain := parts_of_reserved component.style.definition (show "css" ∈ reserved by decide)
  simp only [splits_iff, found, get?_other, ne_eq, String.reduceEq, not_false_eq_true,
    filter_concat, plain, Bool.false_eq_true, if_false, List.append_nil, add_css_eq_ok,
    Option.elim_some]
  constructor
  · rintro ⟨own, selected, styled, others⟩
    have start : (Keyed.get? props "css").elim (.ok none)
        (fun value => (StyleNode.ofJson value).map some) = .ok none := by rw [absent]; rfl
    obtain ⟨node, read, rfl⟩ := Engine.ok_of_map_eq_ok styled
    exact ⟨⟨element, selection, none, extraClass, forwarded⟩,
      splits_iff.mpr ⟨own, selected, start, others⟩, node, read, rfl⟩
  · rintro ⟨⟨_, _, _, _, _⟩, parts, node, read, same⟩
    cases same
    obtain ⟨own, selected, -, others⟩ := splits_iff.mp parts
    exact ⟨own, selected, by rw [read]; rfl, others⟩

theorem splits_concat_className (fresh : "className" ∉ props.map (·.1)) :
    component.Splits (props ++ [("className", value)]) next ↔
      ∃ reading, component.Splits props reading ∧
        reading.add component.style.definition "className" value = .ok next := by
  obtain ⟨absent, found⟩ := get?_new fresh value
  obtain ⟨element, selection, override, extraClass, forwarded⟩ := next
  have plain := parts_of_reserved component.style.definition (show "className" ∈ reserved by decide)
  simp only [splits_iff, found, get?_other, ne_eq, String.reduceEq, not_false_eq_true,
    filter_concat, plain, Bool.false_eq_true, if_false, List.append_nil, add_className_eq_ok,
    Option.elim_some, Option.map_eq_some_iff]
  constructor
  · rintro ⟨own, selected, styled, ⟨text, given, rfl⟩, others⟩
    have start : (Keyed.get? props "className").elim (some "")
        (fun value => value.text?.map Text.trim) = some "" := by rw [absent]; rfl
    exact ⟨⟨element, selection, override, "", forwarded⟩,
      splits_iff.mpr ⟨own, selected, styled, start, others⟩, text, given, rfl⟩
  · rintro ⟨⟨_, _, _, _, _⟩, parts, text, given, same⟩
    cases same
    obtain ⟨own, selected, styled, -, others⟩ := splits_iff.mp parts
    exact ⟨own, selected, styled, ⟨text, given, rfl⟩, others⟩

/-- A prop that is not reserved says nothing of the element, the override and the class of the
caller. -/
theorem get?_reserved (other : key ∉ reserved) (props : List (String × Json)) (value : Json) :
    ∀ name ∈ reserved, Keyed.get? (props ++ [(key, value)]) name = Keyed.get? props name := by
  intro name listed
  apply get?_other
  rintro rfl
  exact other listed

theorem splits_concat_variant (other : key ∉ reserved) {values : Keyed StyleNode}
    (known : component.style.definition.group? key = some values) :
    component.Splits (props ++ [(key, value)]) next ↔
      ∃ reading, component.Splits props reading ∧
        reading.add component.style.definition key value = .ok next := by
  obtain ⟨no_element, no_override, no_class, -⟩ := by
    simpa only [reserved, List.forall_mem_cons] using get?_reserved other props value
  have variant : isVariant component.style.definition key = true := by
    simp [isVariant, other, known]
  have consumed : isForwarded component.style.definition key = false := by simp [isForwarded, known]
  obtain ⟨element, selection, override, extraClass, forwarded⟩ := next
  simp only [splits_iff, no_element, no_override, no_class, filter_concat, variant, consumed,
    Bool.false_eq_true, if_false, if_true, List.append_nil, add_variant_eq_ok variant,
    VariantSelection.ofJson_concat, bind_eq_ok]
  constructor
  · rintro ⟨own, ⟨before, selected, value, read, last⟩, others⟩
    cases last
    exact ⟨⟨element, before, override, extraClass, forwarded⟩,
      splits_iff.mpr ⟨own, selected, others⟩, value, read, rfl⟩
  · rintro ⟨⟨_, before, _, _, _⟩, parts, value, read, same⟩
    cases same
    obtain ⟨own, selected, others⟩ := splits_iff.mp parts
    exact ⟨own, ⟨before, selected, value, read, rfl⟩, others⟩

theorem splits_concat_forwarded (other : key ∉ reserved)
    (unknown : component.style.definition.group? key = none) :
    component.Splits (props ++ [(key, value)]) next ↔
      ∃ reading, component.Splits props reading ∧
        reading.add component.style.definition key value = .ok next := by
  obtain ⟨no_element, no_override, no_class, -⟩ := by
    simpa only [reserved, List.forall_mem_cons] using get?_reserved other props value
  have plain : isVariant component.style.definition key = false := by simp [isVariant, unknown]
  have passed : isForwarded component.style.definition key = true := by
    simp [isForwarded, other, unknown]
  obtain ⟨element, selection, override, extraClass, forwarded⟩ := next
  simp only [splits_iff, no_element, no_override, no_class, filter_concat, plain, passed,
    Bool.false_eq_true, if_false, if_true, List.append_nil, add_forwarded passed]
  constructor
  · rintro ⟨own, selected, styled, given, rfl⟩
    exact ⟨⟨element, selection, override, extraClass, _⟩,
      splits_iff.mpr ⟨own, selected, styled, given, rfl⟩, rfl⟩
  · rintro ⟨⟨_, _, _, _, _⟩, parts, same⟩
    cases same
    obtain ⟨own, selected, styled, given, rfl⟩ := splits_iff.mp parts
    exact ⟨own, selected, styled, given, rfl⟩

/-- A prop whose name is new changes the part that it is read for, and no other. -/
theorem splits_concat (fresh : key ∉ props.map (·.1)) :
    component.Splits (props ++ [(key, value)]) next ↔
      ∃ reading, component.Splits props reading ∧
      reading.add component.style.definition key value = .ok next := by
  by_cases listed : key ∈ reserved
  · obtain rfl | rfl | rfl : key = "as" ∨ key = "css" ∨ key = "className" := by
      simpa [reserved] using listed
    · exact splits_concat_as fresh
    · exact splits_concat_css fresh
    · exact splits_concat_className fresh
  · cases known : component.style.definition.group? key with
    | none => exact splits_concat_forwarded listed known
    | some values => exact splits_concat_variant listed known

theorem read_eq_ok (distinct : (props.map (·.1)).Nodup) :
    component.read props = .ok reading ↔ component.Splits props reading := by
  induction props using List.reverseRecOn generalizing reading with
  | nil =>
    obtain ⟨element, selection, override, extraClass, forwarded⟩ := reading
    simp [read, splits_iff, VariantSelection.ofJson, Keyed.get?, pure, Except.pure, eq_comm]
  | append_singleton props prop ih =>
    obtain ⟨key, value⟩ := prop
    rw [List.map_append, List.map_singleton, List.nodup_append] at distinct
    rw [read_concat, bind_eq_ok, splits_concat]
    · simp only [ih distinct.1]
    · exact fun member => distinct.2.2 key member key (List.mem_singleton_self _) rfl

/-- Props are read as without those that are forwarded. -/
theorem read_eq_map (component : Component) (props : List (String × Json)) :
    component.read props =
      (component.read (props.filter fun prop => !isForwarded component.style.definition prop.1)).map
        fun reading => { reading with
          forwarded :=
            props.filter fun prop => isForwarded component.style.definition prop.1 } := by
  induction props using List.reverseRecOn with
  | nil => rfl
  | append_singleton props prop ih =>
    obtain ⟨key, value⟩ := prop
    rw [read_concat, ih, List.filter_append, List.filter_append, List.filter_singleton,
      List.filter_singleton]
    cases forwarded : isForwarded component.style.definition key with
    | true =>
      simp only [Bool.not_true, cond_false, cond_true, List.append_nil]
      cases component.read (props.filter fun prop =>
        !isForwarded component.style.definition prop.1) with
      | error error => rfl
      | ok reading => exact add_forwarded forwarded
    | false =>
      simp only [Bool.not_false, cond_true, cond_false, List.append_nil, read_concat]
      cases component.read (props.filter fun prop =>
        !isForwarded component.style.definition prop.1) with
      | error error => rfl
      | ok reading => exact add_withForwarded forwarded _

end Read

theorem joinClasses_eq (own extra : String) :
    joinClasses own extra = " ".intercalate ([own, extra].filter fun text => text ≠ "") := by
  unfold joinClasses
  split
  · next none_own =>
    obtain rfl := String.isEmpty_iff.mp none_own
    by_cases none_extra : extra = "" <;> simp [none_extra]
  · next some_own =>
    rw [String.isEmpty_iff] at some_own
    split
    · next none_extra =>
      obtain rfl := String.isEmpty_iff.mp none_extra
      simp [some_own]
    · next some_extra =>
      rw [String.isEmpty_iff] at some_extra
      simp [some_own, some_extra]

end Component

namespace Engine

open Component

/-- What a component renders to, by the parts of its props: the element, the class that its style
answers to the chosen variants and the override, with the class of the caller behind it, and the
forwarded props. -/
structure RendersParts (settle : Settle Engine) (engine : Engine) (component : Component)
    (props : List (String × Json)) (rendered : RenderedElement) (after : Engine) : Prop where
  forwarded : rendered.props = props.filter fun prop =>
    isForwarded component.style.definition prop.1
  element : (Keyed.get? props "as").elim (some component.element) Json.text? = some rendered.element
  className : ∃ selection override own extra,
    VariantSelection.ofJson (props.filter fun prop => isVariant component.style.definition prop.1) =
      .ok selection ∧
    (Keyed.get? props "css").elim (.ok none) (fun value => (StyleNode.ofJson value).map some) =
      .ok override ∧
    engine.className settle component.style selection override = (.ok own, after) ∧
    (Keyed.get? props "className").elim (some "") (fun value => value.text?.map Text.trim) =
      some extra ∧
    rendered.className = " ".intercalate ([own, extra].filter fun text => text ≠ "")

/-- Without repeated names, rendering succeeds just with what the parts of the props say. And with
any props it comes to what the props come to that are not forwarded. -/
theorem renderWith_splits (settle : Settle Engine) (engine : Engine) (component : Component)
    (props : List (String × Json)) :
    ((props.map (·.1)).Nodup → ∀ rendered after,
      engine.renderWith settle component props = (.ok rendered, after) ↔
        engine.RendersParts settle component props rendered after) ∧
      engine.renderWith settle component props =
        (engine.renderWith settle component
          (props.filter fun prop => !isForwarded component.style.definition prop.1)).map
          (Except.map fun rendered => { rendered with
            props :=
              props.filter fun prop => isForwarded component.style.definition prop.1 }) id := by
  constructor
  · intro distinct rendered after
    constructor
    · intro answered
      cases read : component.read props with
      | error error => simp [renderWith, read] at answered
      | ok reading =>
        rw [renderWith_eq settle engine read] at answered
        obtain ⟨told, rfl⟩ := told_eq answered
        obtain ⟨own, asked, rfl⟩ := ok_of_map_eq_ok told
        obtain ⟨element, selected, styled, given, forwarded⟩ := (read_eq_ok distinct).mp read
        exact ⟨forwarded, element, reading.selection, reading.override, own,
          reading.extraClass, selected,
          styled, Prod.ext asked rfl, given, joinClasses_eq own reading.extraClass⟩
    · rintro ⟨forwarded, element, selection, override, own, extra, selected, styled, asked,
        given, joined⟩
      have parts :
          component.Splits props ⟨rendered.element, selection, override, extra, rendered.props⟩ :=
        ⟨element, selected, styled, given, forwarded⟩
      rw [renderWith_eq settle engine ((read_eq_ok distinct).mpr parts), asked]
      simp only [Prod.map_apply, Except.map, joinClasses_eq, ← joined, id_eq]
  · rw [renderWith, read_eq_map]
    cases read : component.read
        (props.filter fun prop => !isForwarded component.style.definition prop.1) with
    | error error => simp [renderWith, read, Except.map]
    | ok reading =>
      rw [renderWith_eq settle engine read]
      simp only [Except.map]
      split <;> next answer => simp [answer, Except.map]

theorem renderWith_splits_link :
    let engine := start drain ⟨"", .empty, [], .empty, .empty⟩ false
    let component : Component :=
      ⟨"button", 0, [], [("tone", [("warm", [("color", .text "red")])])], [], []⟩
    let props : List (String × Json) := [("href", .text "/"), ("tone", .text "warm"),
      ("css", .object [("top", .text "0")]), ("as", .text "a"), ("className", .text " wide "),
        ("tabs", .array [])]
    (props.map (·.1)).Nodup ∧
      ∃ rendered after, engine.renderWith drain component props = (.ok rendered, after) ∧
      engine.RendersParts drain component props rendered after ∧ rendered.element = "a" ∧
      rendered.className = "c-0 c-1 wide" ∧
      rendered.props = [("href", .text "/"), ("tabs", .array [])] := by
  intro engine component props
  have distinct : (props.map (·.1)).Nodup := by decide
  have answered : (engine.renderWith drain component props).1.toOption.map
      (fun rendered => (rendered.element, rendered.className)) = some ("a", "c-0 c-1 wide") := by
    decide +kernel
  cases ran : engine.renderWith drain component props with
  | mk result after =>
    cases result with
    | error error => simp [ran, Except.toOption] at answered
    | ok rendered =>
      simp only [ran, Except.toOption, Option.map_some, Option.some.injEq,
        Prod.mk.injEq] at answered
      have splits :=
        ((renderWith_splits drain engine component props).1 distinct rendered after).mp ran
      exact ⟨distinct, rendered, after, rfl, splits, answered.1, answered.2, splits.forwarded⟩

/-- A group that is named as the element prop: the prop says the element only, and the class is not
the one that the group has for its value. -/
theorem reserved_group_unread :
    let node : StyleNode :=
      [("variants", .node [("as", .node [("a", .node [("color", .text "red")])])])]
    let engine := start drain ⟨"", .empty, [], .empty, .empty⟩ false
    let after := (engine.styled "button" node).2
    let component : Component :=
      ⟨"button", 0, [], [("as", [("a", [("color", .text "red")])])], [], []⟩
    let props : List (String × Json) := [("as", .text "a")]
    (engine.styled "button" node).1 = .ok component ∧ (props.map (·.1)).Nodup ∧
      VariantSelection.ofJson
        (props.filter fun prop => (component.style.definition.group? prop.1).isSome) =
          .ok [("as", .single "a")] ∧
      (after.className drain component.style [("as", .single "a")] none).1 = .ok "c-0" ∧
      (after.renderWith drain component props).1.toOption.map
        (fun rendered => (rendered.element, rendered.className)) = some ("a", "") := by
  intro node engine after component props
  have compiled : (engine.styled "button" node).1 = .ok component := rfl
  have chosen : VariantSelection.ofJson
      (props.filter fun prop => (component.style.definition.group? prop.1).isSome) =
        .ok [("as", .single "a")] := rfl
  exact ⟨compiled, by decide, chosen, by decide +kernel, by decide +kernel⟩

end Engine

end AtomicCss
