import AtomicCss.Proofs.Manifest.Keys
import AtomicCss.Proofs.Manifest.Steps

/-!
Compiling a manifest again.

Themes, global styles and keyframes are operations that ask for no classes, and are retained as
such. Of a style its definition stays under the number that it got, and each render is retained; the
style is compiled anew and asked for the same classes under its new number.
-/

namespace AtomicCss

namespace Compilation

/-- What compiling a theme leaves, and the class that it makes. -/
def LeavesTheme (item : String × Json) (engine : Engine) (made : String × String) : Prop :=
  ∃ overrides theme, scalesOf ("themes." ++ item.1) item.2 = .ok overrides ∧
    engine.Retains (.createTheme (some item.1) overrides) (.theme theme) ∧
      made = (item.1, theme.className)

theorem repeats_addTheme (path : String) (item : String × Json) :
    Repeats (addTheme path item.1 item.2) fun engine entries _ =>
      ∃ made, LeavesTheme item engine made ∧ entries = [.theme made.1 made.2] := by
  have created (overrides : ScaleMap) :
      Repeats (withEngine path ("themes." ++ item.1) fun engine =>
          engine.createTheme Engine.drain (some item.1) overrides)
        fun engine entries theme =>
          engine.Retains (.createTheme (some item.1) overrides) (.theme theme) ∧ entries = [] :=
    repeats_withEngine (fun _ _ => Answer.theme.inj) nofun (fun _ => trivial) fun _ => rfl
  apply ((repeats_check path ("themes." ++ item.1)
    (scalesOf ("themes." ++ item.1) item.2)).bind_silent
    fun overrides => (created overrides).bind_silent
      fun theme => repeats_record (.theme item.1 theme.className)).congr
  intro engine entries _
  constructor
  · rintro ⟨overrides, read, theme, retains, rfl⟩
    exact ⟨_, ⟨overrides, theme, read, retains, rfl⟩, rfl⟩
  · rintro ⟨_, ⟨overrides, theme, read, retains, rfl⟩, rfl⟩
    exact ⟨overrides, read, theme, retains, rfl⟩

/-- What compiling keyframes leaves, and the name that it makes. -/
def LeavesKeyframes (item : String × Json) (engine : Engine) (made : String × String) : Prop :=
  ∃ node keyframes, StyleNode.ofJson item.2 = .ok node ∧
    engine.Retains (.keyframes node) (.keyframes keyframes) ∧ made = (item.1, keyframes.name)

theorem repeats_addKeyframes (path : String) (item : String × Json) :
    Repeats (addKeyframes path item.1 item.2) fun engine entries _ =>
      ∃ made, LeavesKeyframes item engine made ∧ entries = [.keyframes made.1 made.2] := by
  have made (node : StyleNode) :
      Repeats (withEngine path ("keyframes." ++ item.1) fun engine =>
        engine.keyframes Engine.drain node)
        fun engine entries keyframes =>
          engine.Retains (.keyframes node) (.keyframes keyframes) ∧ entries = [] :=
    repeats_withEngine (fun _ _ => Answer.keyframes.inj) nofun (fun _ => trivial) fun _ => rfl
  apply ((repeats_check path ("keyframes." ++ item.1) (StyleNode.ofJson item.2)).bind_silent
    fun node => (made node).bind_silent
      fun keyframes => repeats_record (.keyframes item.1 keyframes.name)).congr
  intro engine entries _
  constructor
  · rintro ⟨node, read, keyframes, retains, rfl⟩
    exact ⟨_, ⟨node, keyframes, read, retains, rfl⟩, rfl⟩
  · rintro ⟨_, ⟨node, keyframes, read, retains, rfl⟩, rfl⟩
    exact ⟨node, read, keyframes, retains, rfl⟩

/-- What compiling a global style leaves. -/
def LeavesGlobal (json : Json) (engine : Engine) (style : GlobalStyle) : Prop :=
  ∃ node, StyleNode.ofJson json = .ok node ∧ engine.globalCss node = .ok style ∧
    engine.Retains (.apply style) .applied

theorem run_addGlobal_eq_ok {path : String} {index : Nat} {json : Json} {start last : Compilation}
    {found : Unit} :
    run start (addGlobal path index json) = (.ok found, last) ↔
      ∃ node style, StyleNode.ofJson json = .ok node ∧ start.engine.globalCss node = .ok style ∧
        last = { start with engine := start.engine.apply Engine.drain style } := by
  rw [addGlobal, run_bind_eq_ok]
  constructor
  · rintro ⟨node, middle, checked, taken⟩
    obtain ⟨read, rfl⟩ := run_check_eq_ok.mp checked
    obtain ⟨engine, used, rfl⟩ := run_withEngine_eq_ok.mp taken
    cases composed : middle.engine.globalCss node with
    | error error => simp [composed] at used
    | ok style =>
      simp only [composed] at used
      obtain ⟨-, rfl⟩ := Prod.mk.inj used
      exact ⟨node, style, read, composed, rfl⟩
  · rintro ⟨node, style, read, composed, rfl⟩
    refine ⟨node, start, run_check_eq_ok.mpr ⟨read, rfl⟩, run_withEngine_eq_ok.mpr ⟨_, ?_, rfl⟩⟩
    simp only [composed]

theorem repeats_addGlobal (path : String) (index : Nat) (json : Json) :
    Repeats (addGlobal path index json) fun engine entries _ =>
      (∃ style, LeavesGlobal json engine style) ∧ entries = [] where
  grow grows seen := by
    rintro ⟨⟨style, node, read, composed, retains⟩, rfl⟩
    have still_composed := (Engine.globalCss_of_same grows.config grows.theme node).trans composed
    exact ⟨⟨style, node, read, still_composed, retains.grow grows.config grows.theme seen⟩, rfl⟩
  proceeds {start _ _} _ taken := by
    obtain ⟨node, style, -, composed, rfl⟩ := run_addGlobal_eq_ok.mp taken
    exact Engine.proceeds_holdsAcross.apply start.engine (Engine.order_globalCss composed)
  leaves {start _ _} rests _ taken := by
    obtain ⟨node, style, read, composed, rfl⟩ := run_addGlobal_eq_ok.mp taken
    have proceeds :=
      Engine.proceeds_holdsAcross.apply start.engine (Engine.order_globalCss composed)
    have grows := proceeds.grows rests
    have known : (Operation.apply style).Known start.engine := ⟨node, composed⟩
    have still_composed := (Engine.globalCss_of_same grows.config grows.theme node).trans composed
    exact ⟨[], rfl,
      ⟨style, node, read, still_composed, Engine.retains_of_performed known nofun rfl⟩, rfl⟩
  again := by
    rintro start entries value rests - ⟨⟨style, node, read, composed, retains⟩, rfl⟩
    obtain ⟨styles, performed⟩ := retains.again rests.idle.drain id
    have applied : start.engine.apply Engine.drain style = { start.engine with styles } :=
      congrArg Prod.snd performed
    refine ⟨{ start with engine := { start.engine with styles } },
      run_addGlobal_eq_ok.mpr ⟨node, style, read, composed, ?_⟩, rfl, rfl, rfl, rfl⟩
    rw [applied]

theorem repeats_addGlobals (path : String) (index : Nat) (items : List Json) :
    Repeats (addGlobals path index items) fun engine entries _ =>
      (∀ json ∈ items, ∃ style, LeavesGlobal json engine style) ∧ entries = [] := by
  induction items generalizing index with
  | nil => exact (repeats_pure ()).congr (by simp)
  | cons json rest ih =>
    apply ((repeats_addGlobal path index json).bind_silent fun _ => ih (index + 1)).congr
    intro engine entries _
    rw [List.forall_mem_cons, and_assoc, exists_const]

section Styles

variable {path part : String} {component : Component} {start last : Compilation}

theorem namesOnce_render {props : Keyed Json} (once : ∀ prop ∈ props, prop.2.keysOnce = true) :
    (Operation.render component props).NamesOnce :=
  fun _ read => Component.namesOnce_read once read

/-- A render of a style, of which the class map gets the element and the class. -/
def RendersClass (engine : Engine) (component : Component) (props : Keyed Json)
    (rendered : RenderedClass) :
    Prop :=
  ∃ whole, engine.Renders component props whole ∧ rendered = ⟨whole.element, whole.className⟩

theorem RendersClass.grow {first second : Engine} {props : Keyed Json} {rendered : RenderedClass}
    (grows : Engine.Grows first second) (renders : RendersClass first component props rendered) :
    RendersClass second component props rendered := by
  obtain ⟨whole, renders, same⟩ := renders
  exact ⟨whole, renders.grow grows, same⟩

theorem run_renderAll_cons {index : Nat} {props : Keyed Json} {others : List (Keyed Json)}
    {renders : List RenderedClass} :
    run start (renderAll path part component index (props :: others)) = (.ok renders, last) ↔
      ∃ whole engine rest, start.engine.renderWith Engine.drain component props =
        (.ok whole, engine) ∧
        run { start with engine } (renderAll path part component (index + 1) others) =
          (.ok rest, last) ∧
        renders = ⟨whole.element, whole.className⟩ :: rest := by
  rw [renderAll, run_bind_eq_ok]
  constructor
  · rintro ⟨whole, middle, taken, taken_others⟩
    obtain ⟨engine, used, rfl⟩ := run_withEngine_eq_ok.mp taken
    obtain ⟨rest, _, taken_rest, ended⟩ := run_bind_eq_ok.mp taken_others
    obtain ⟨rfl, rfl⟩ := run_pure_eq_ok.mp ended
    exact ⟨whole, engine, rest, used, taken_rest, rfl⟩
  · rintro ⟨whole, engine, rest, used, taken_rest, rfl⟩
    exact ⟨whole, _, run_withEngine_eq_ok.mpr ⟨engine, used, rfl⟩,
      run_bind_eq_ok.mpr ⟨rest, last, taken_rest, run_pure_eq_ok.mpr ⟨rfl, rfl⟩⟩⟩

/-- Renders one after another, of which the engine retains every one. -/
theorem renders_of_renderAll {props : List (Keyed Json)} {index : Nat}
    {renders : List RenderedClass} (rests : start.engine.AtRest)
    (known : start.engine.style? component.style.number = some component.style)
    (taken : run start (renderAll path part component index props) = (.ok renders, last)) :
    Engine.Proceeds start.engine last.engine ∧ last.classes = start.classes ∧
      ((∀ item ∈ props, (Operation.render component item).NamesOnce) → last.engine.HashesApart →
        List.Forall₂ (RendersClass last.engine component) props renders) := by
  induction props generalizing start index renders with
  | nil =>
    obtain ⟨rfl, rfl⟩ := run_pure_eq_ok.mp taken
    exact ⟨Engine.proceeds_holdsAcross.refl _, rfl, fun _ _ => .nil⟩
  | cons item others ih =>
    obtain ⟨whole, engine, rest, used, taken_rest, rfl⟩ := run_renderAll_cons.mp taken
    have proceeds := Engine.proceeds_holdsAcross.renderWith start.engine component item known
    rw [used] at proceeds
    have grows := proceeds.grows rests
    obtain ⟨goes_on, same_classes, renders_rest⟩ :=
      ih (proceeds.rests rests) (grows.style? known) taken_rest
    have grows_rest := goes_on.grows (proceeds.rests rests)
    refine ⟨Engine.proceeds_holdsAcross.trans proceeds goes_on, same_classes, ?_⟩
    intro once apart
    obtain ⟨once_own, once_rest⟩ := List.forall_mem_cons.mp once
    have apart_start := (Engine.grows_composes.trans grows grows_rest).apart apart
    have renders := Engine.renders_of_rendered rests apart_start known once_own used
    exact .cons ⟨whole, renders.grow grows_rest, rfl⟩ (renders_rest once_rest apart)

/-- Renders that the engine retains are made again, also under another number. -/
theorem renderAll_of_renders {number : Nat → Nat} {props : List (Keyed Json)} {index : Nat}
    {renders : List RenderedClass} (rests : start.engine.AtRest) (apart : start.engine.HashesApart)
    (known : start.engine.style? (component.renumber number).style.number =
      some (component.renumber number).style)
    (once : ∀ item ∈ props, (Operation.render component item).NamesOnce)
    (retained : List.Forall₂ (RendersClass start.engine component) props renders) :
    ∃ last, run start (renderAll path part (component.renumber number) index props) =
      (.ok renders, last) ∧
      last.classes = start.classes ∧ Engine.Unmoved start.engine last.engine := by
  induction props generalizing start index renders with
  | nil =>
    cases retained
    exact ⟨start, rfl, rfl, Engine.unmoved_composes.refl _⟩
  | cons item others ih =>
    obtain ⟨once_own, once_rest⟩ := List.forall_mem_cons.mp once
    obtain ⟨_, rest, ⟨whole, renders, rfl⟩, retained_rest, rfl⟩ :=
      List.forall₂_cons_left_iff.mp retained
    obtain ⟨memo, used⟩ := renders.again rests apart known once_own
    have proceeds :=
      Engine.proceeds_holdsAcross.renderWith start.engine (component.renumber number) item known
    rw [used] at proceeds
    have still_retained := retained_rest.imp fun _ _ => RendersClass.grow (proceeds.grows rests)
    obtain ⟨last, taken, same_classes, unmoved⟩ :=
      @ih { start with engine := { start.engine with memo } } (index + 1) rest
        (proceeds.rests rests) apart known once_rest still_retained
    exact ⟨last, run_renderAll_cons.mpr ⟨whole, _, _, used, taken, rfl⟩, same_classes,
      unmoved.sheet, unmoved.index, unmoved.replica⟩

/-- A style is compiled, and rendered with each of the props. -/
def LeavesRenders (element : String) (node : StyleNode) (props : List (Keyed Json))
    (engine : Engine) (renders : List RenderedClass) : Prop :=
  ∃ definition number, StyleDefinition.parse node = .ok definition ∧
    engine.check definition = .ok () ∧
    engine.style? number = some ⟨number, definition⟩ ∧
    List.Forall₂ (RendersClass engine ⟨element, number, definition⟩) props renders

theorem styled_eq_ok {engine after : Engine} {element : String} {node : StyleNode} :
    engine.styled element node = (.ok component, after) ↔
      ∃ definition, StyleDefinition.parse node = .ok definition ∧ engine.check definition = .ok () ∧
        component = ⟨element, engine.styles.length, definition⟩ ∧
        after = { engine with styles := engine.styles ++ [definition] } := by
  rw [Engine.styled_eq]
  unfold Engine.css
  cases parsed : StyleDefinition.parse node with
  | error error => simp [Prod.map, Except.map]
  | ok definition =>
    unfold Engine.compile
    cases checked : engine.check definition with
    | error error => simp [Prod.map, Except.map, checked]
    | ok => simp [Prod.map, Except.map, checked, eq_comm]

theorem repeats_renders (path part element : String) (node : StyleNode) {props : List (Keyed Json)}
    (once : ∀ item ∈ props, ∀ prop ∈ item, prop.2.keysOnce = true) :
    Repeats
      (withEngine path part (fun engine => engine.styled element node) >>= fun component =>
        renderAll path part component 0 props)
      fun engine entries renders => LeavesRenders element node props engine renders ∧
        entries = [] where
  grow grows _ := by
    rintro ⟨⟨definition, number, parsed, checked, known, renders⟩, rfl⟩
    have still_retained := renders.imp fun _ _ => RendersClass.grow grows
    have still_checked := (Engine.check_of_same grows.config grows.theme definition).trans checked
    exact ⟨⟨definition, number, parsed, still_checked, grows.style? known, still_retained⟩, rfl⟩
  proceeds := by
    intro start last renders rests taken
    obtain ⟨component, _, used, rendered⟩ := run_bind_eq_ok.mp taken
    obtain ⟨_, styled, rfl⟩ := run_withEngine_eq_ok.mp used
    obtain ⟨definition, parsed, checked, rfl, rfl⟩ := styled_eq_ok.mp styled
    have compiled := Engine.proceeds_holdsAcross.compiled start.engine definition
    have goes_on := (renders_of_renderAll (compiled.rests rests)
      (start.engine.style?_compiled definition) rendered).1
    exact Engine.proceeds_holdsAcross.trans compiled goes_on
  leaves := by
    intro start last renders rests apart taken
    obtain ⟨component, _, used, rendered⟩ := run_bind_eq_ok.mp taken
    obtain ⟨_, styled, rfl⟩ := run_withEngine_eq_ok.mp used
    obtain ⟨definition, parsed, checked, rfl, rfl⟩ := styled_eq_ok.mp styled
    have compiled := Engine.proceeds_holdsAcross.compiled start.engine definition
    have known := start.engine.style?_compiled definition
    obtain ⟨goes_on, same_classes, retained⟩ :=
      renders_of_renderAll (compiled.rests rests) known rendered
    have grows :=
      Engine.grows_composes.trans (compiled.grows rests) (goes_on.grows (compiled.rests rests))
    have renders_left := retained (fun item member => namesOnce_render (once item member)) apart
    have still_checked := (Engine.check_of_same grows.config grows.theme definition).trans checked
    have still_known := (goes_on.grows (compiled.rests rests)).style? known
    exact ⟨[], same_classes, ⟨definition, _, parsed, still_checked, still_known, renders_left⟩, rfl⟩
  again := by
    rintro start entries renders rests apart
      ⟨⟨definition, number, parsed, checked, -, retained⟩, rfl⟩
    have compiled := Engine.proceeds_holdsAcross.compiled start.engine definition
    have still_retained := retained.imp fun _ _ => RendersClass.grow (compiled.grows rests)
    obtain ⟨last, taken, same_classes, unmoved⟩ :=
      @renderAll_of_renders path part ⟨element, number, definition⟩
        { start with engine := { start.engine with styles := start.engine.styles ++ [definition] } }
        (fun _ => start.engine.styles.length) props 0 renders (compiled.rests rests) apart
        (start.engine.style?_compiled definition)
        (fun item member => namesOnce_render (once item member)) still_retained
    have styled : start.engine.styled element node = (.ok ⟨element, _, definition⟩, _) :=
      styled_eq_ok.mpr ⟨definition, parsed, checked, rfl, rfl⟩
    exact ⟨last, run_bind_eq_ok.mpr ⟨_, _, run_withEngine_eq_ok.mpr ⟨_, styled, rfl⟩, taken⟩,
      same_classes, unmoved.sheet, unmoved.index, unmoved.replica⟩

end Styles

theorem keysOnce_rendersOf {json : Json} {entry : StyleEntry} (once : json.keysOnce = true)
    (read : StyleEntry.ofJson? json = some entry) :
    ∀ props ∈ rendersOf entry, ∀ prop ∈ props, prop.2.keysOnce = true := by
  unfold rendersOf
  split
  · simp
  · exact StyleEntry.keysOnce_renders once read

/-- What compiling a style of a manifest leaves, and its renders. -/
def LeavesStyle (item : String × Json) (engine : Engine) (made : String × List RenderedClass) :
    Prop :=
  ∃ entry node, StyleEntry.ofJson? item.2 = some entry ∧ StyleNode.ofJson entry.style = .ok node ∧
    made.1 = item.1 ∧
    LeavesRenders (entry.element.getD defaultElement) node (rendersOf entry) engine made.2

theorem repeats_addStyle (path : String) {item : String × Json} (once : item.2.keysOnce = true) :
    Repeats (addStyle path item.1 item.2) fun engine entries count =>
      ∃ made, LeavesStyle item engine made ∧ entries = [.style made.1 made.2] ∧
        count = made.2.length := by
  unfold addStyle
  cases read : StyleEntry.ofJson? item.2 with
  | none =>
    apply (repeats_throw (.malformed path)).congr
    simp [LeavesStyle, read]
  | some entry =>
    have once_props := keysOnce_rendersOf once read
    have whole :=
      (repeats_check path ("styles." ++ item.1) (StyleNode.ofJson entry.style)).bind_silent
      fun node =>
        (repeats_renders path ("styles." ++ item.1) (entry.element.getD defaultElement) node
        once_props).bind_silent
          fun renders => (repeats_record (.style item.1 renders)).then_pure fun _ => renders.length
    simp only [bind_assoc] at whole
    apply whole.congr
    intro engine entries count
    constructor
    · rintro ⟨node, parsed, renders, left, -, rfl, rfl⟩
      exact ⟨(item.1, renders), ⟨entry, node, read, parsed, rfl, left⟩, rfl, rfl⟩
    · rintro ⟨made, ⟨other, node, read_other, parsed, named, left⟩, rfl, rfl⟩
      obtain rfl := Option.some.inj (read.symm.trans read_other)
      exact ⟨node, parsed, made.2, left, (), by rw [named], rfl⟩

/-- What compiling a manifest leaves: the entries of its themes, keyframes and styles, and their
counts. -/
def LeavesManifest (manifest : Manifest) (engine : Engine) (entries : List ClassMap.Entry)
    (stats : ManifestStats) : Prop :=
  ∃ themes keyframes styles,
    List.Forall₂ (fun item made => LeavesTheme item engine made) manifest.themes themes ∧
    (∀ json ∈ manifest.global, ∃ style, LeavesGlobal json engine style) ∧
    List.Forall₂ (fun item made => LeavesKeyframes item engine made) manifest.keyframes keyframes ∧
    List.Forall₂ (fun item made => LeavesStyle item engine made) manifest.styles styles ∧
    entries = themes.map (fun made => .theme made.1 made.2) ++
      (keyframes.map (fun made => .keyframes made.1 made.2) ++
        styles.map fun made => .style made.1 made.2) ∧
    stats = ⟨styles.length, (styles.map (·.2.length)).foldr (· + ·) 0⟩

theorem repeats_addManifest (path : String) {manifest : Manifest}
    (once : manifest.keysOnce = true) :
    Repeats (addManifest path manifest) (LeavesManifest manifest) := by
  obtain ⟨-, -, -, once_styles⟩ := Manifest.keysOnce_iff.mp once
  have each_style := fun item member =>
    @repeats_addStyle path item ((Json.keysOnce_object.mp once_styles).2 item member)
  apply ((repeats_forM fun item (_ : item ∈ manifest.themes) =>
    repeats_addTheme path item).bind fun _ =>
    (repeats_addGlobals path 0 manifest.global).bind_silent fun _ =>
      (repeats_forM fun item (_ : item ∈ manifest.keyframes) => repeats_addKeyframes path item).bind
        fun _ => (repeats_mapM each_style).then_pure fun counts =>
          (⟨counts.length, counts.foldr (· + ·) 0⟩ : ManifestStats)).congr
  intro engine entries stats
  constructor
  · rintro ⟨_, _, _, ⟨themes, in_themes, rfl⟩,
      ⟨_, in_global, _, _, _, ⟨keyframes, in_keyframes, rfl⟩,
      ⟨_, ⟨styles, in_styles, rfl, rfl⟩, rfl⟩, rfl⟩, rfl⟩
    exact ⟨themes, keyframes, styles, in_themes, in_global, in_keyframes, in_styles, rfl, by simp⟩
  · rintro ⟨themes, keyframes, styles, in_themes, in_global, in_keyframes, in_styles, rfl, rfl⟩
    exact ⟨(), _, _, ⟨themes, in_themes, rfl⟩,
      ⟨(), in_global, (), _, _, ⟨keyframes, in_keyframes, rfl⟩,
      ⟨_, ⟨styles, in_styles, rfl, rfl⟩, by simp⟩, rfl⟩, rfl⟩

section Manifests

variable {engine : Engine}

/-- The element and the class are what rendering answers, and for each class that was generated the
sheet holds the rule that its declaration spells. -/
def RendersByRules (engine : Engine) (component : Component) (props : Keyed Json)
    (rendered : RenderedClass) : Prop :=
  ∃ reading declarations classes, component.read props = .ok reading ∧
    engine.declarations component.style.definition
      (component.style.definition.normalize reading.selection) reading.override = .ok declarations ∧
    (engine.render component props).1 =
      .ok ⟨rendered.element, rendered.className, reading.forwarded⟩ ∧
    rendered.className = Component.joinClasses (" ".intercalate classes) reading.extraClass ∧
    List.Forall₂ (fun className declaration =>
      ∃ css : String, css.toList = declaration.spelled className ∧
        engine.index.get? declaration.hash =
          some ⟨declaration.hash, className, declaration, css⟩ ∧
        ⟨declaration.group, declaration.rank engine.config.breakpoints, css⟩ ∈ engine.sheet.rules)
      classes declarations

theorem RendersClass.byRules {component : Component} {props : Keyed Json} {rendered : RenderedClass}
    (renders : RendersClass engine component props rendered) (rests : engine.AtRest)
    (apart : engine.HashesApart)
    (known : engine.style? component.style.number = some component.style)
    (once : ∀ prop ∈ props, prop.2.keysOnce = true) :
    RendersByRules engine component props rendered := by
  obtain ⟨whole, retained, rfl⟩ := renders
  obtain ⟨memo, answered⟩ :=
    @Engine.Renders.again engine component props whole retained rests apart id known
    (namesOnce_render once)
  obtain ⟨reading, declarations, classes, read, found, given, rfl⟩ := retained
  refine ⟨reading, declarations, classes, read, found, congrArg Prod.fst answered, rfl, ?_⟩
  exact given.imp fun className declaration has => (rests.kept apart).holds has

theorem renders_byRules {component : Component} {props : List (Keyed Json)}
    {renders : List RenderedClass} (rests : engine.AtRest) (apart : engine.HashesApart)
    (known : engine.style? component.style.number = some component.style)
    (once : ∀ item ∈ props, ∀ prop ∈ item, prop.2.keysOnce = true)
    (retained : List.Forall₂ (RendersClass engine component) props renders) :
    List.Forall₂ (RendersByRules engine component) props renders := by
  induction retained with
  | nil => exact .nil
  | cons own _ ih =>
    obtain ⟨once_own, once_rest⟩ := List.forall_mem_cons.mp once
    exact .cons (own.byRules rests apart known once_own) (ih once_rest)

/-- The style of a manifest is known, and its renders stand in the class map. -/
def HoldsStyle (compilation : Compilation) (name : String) (json : Json) : Prop :=
  ∃ entry node definition number renders,
    StyleEntry.ofJson? json = some entry ∧ StyleNode.ofJson entry.style = .ok node ∧
    StyleDefinition.parse node = .ok definition ∧
    compilation.engine.style? number = some ⟨number, definition⟩ ∧
    compilation.classes.styles.get? name = some renders ∧
    List.Forall₂
      (RendersByRules compilation.engine ⟨entry.element.getD defaultElement, number, definition⟩)
      (rendersOf entry) renders

theorem length_rendersOf (entry : StyleEntry) :
    (rendersOf entry).length = max 1 entry.renders.length := by
  unfold rendersOf
  cases entry.renders with
  | nil => rfl
  | cons props rest =>
    simp only [List.isEmpty_cons, Bool.false_eq_true, if_false, List.length_cons]
    omega

theorem count_of_leavesStyle {items : Keyed Json} {styles : List (String × List RenderedClass)}
    (left : List.Forall₂ (fun item made => LeavesStyle item engine made) items styles) :
    ∃ entries,
      List.Forall₂ (fun item entry => StyleEntry.ofJson? item.2 = some entry) items entries ∧
      (styles.map (·.2.length)).foldr (· + ·) 0 =
        (entries.map fun entry => max 1 entry.renders.length).foldr (· + ·) 0 := by
  induction left with
  | nil => exact ⟨[], .nil, rfl⟩
  | cons own _ ih =>
    obtain ⟨entry, node, read, -, -, _, _, -, -, -, renders⟩ := own
    obtain ⟨entries, others, counted⟩ := ih
    refine ⟨entry :: entries, .cons read others, ?_⟩
    rw [List.map_cons, List.foldr_cons, List.map_cons, List.foldr_cons, counted,
      ← renders.length_eq, length_rendersOf]

theorem names_of_forall₂ {Made : Type} {Fact : String × Json → String × Made → Prop}
    (named : ∀ item made, Fact item made → made.1 = item.1) {items : Keyed Json}
    {all : List (String × Made)} (facts : List.Forall₂ Fact items all) :
    all.map (·.1) = items.map (·.1) := by
  induction facts with
  | nil => rfl
  | cons own _ ih => rw [List.map_cons, List.map_cons, named _ _ own, ih]

/-- Compiling a manifest counts its styles and their renders, enters into the class map for each
style what rendering answers for each of its props, by classes that have their rules in the sheet,
and leaves the entries of other names alone. Compiling it again counts the same, and changes neither
the class map nor the sheet. Documents are read into manifests of this kind. -/
theorem classes_of_manifest {config : Config} {replicated : Bool} {script : List (List Request)}
    {requests : List Request} {path : String} {manifest : Manifest} {start after : Compilation}
    {stats : ManifestStats}
    (reached : start.engine =
      ((Engine.start Engine.drain config replicated).withScript script).run requests)
    (once : manifest.keysOnce = true)
    (compiled : start.run (addManifest path manifest) = (.ok stats, after))
    (apart : after.engine.HashesApart) :
    stats.styles = manifest.styles.length ∧
      (∃ entries,
        List.Forall₂ (fun item entry => StyleEntry.ofJson? item.2 = some entry)
          manifest.styles entries ∧
          stats.renders = (entries.map fun entry => max 1 entry.renders.length).foldr (· + ·) 0) ∧
      (∀ name json, (name, json) ∈ manifest.styles → after.HoldsStyle name json) ∧
      (∀ name,
        (name ∉ manifest.themes.names →
          after.classes.themes.get? name = start.classes.themes.get? name) ∧
        (name ∉ manifest.keyframes.names →
          after.classes.keyframes.get? name = start.classes.keyframes.get? name) ∧
        (name ∉ manifest.styles.names →
          after.classes.styles.get? name = start.classes.styles.get? name)) ∧
      (∃ last, after.run (addManifest path manifest) = (.ok stats, last) ∧
        last.classes = after.classes ∧
        last.engine.cssText = after.engine.cssText ∧ Engine.Unmoved after.engine last.engine) ∧
      ∀ text other, Manifest.ofText? text = some other → other.keysOnce = true := by
  have rests : start.engine.AtRest := reached ▸ Engine.atRest_run config replicated script requests
  have repeats := repeats_addManifest path once
  have rests_after := (repeats.proceeds rests compiled).rests rests
  obtain ⟨entries, entered, left⟩ := repeats.leaves rests apart compiled
  obtain ⟨last, again, entered_again, unmoved⟩ := repeats.again rests_after apart left
  obtain ⟨themes, keyframes, styles, in_themes, -, in_keyframes, in_styles, rfl, rfl⟩ := left
  have theme_names := names_of_forall₂ (fun item made left => by
    obtain ⟨_, _, -, -, rfl⟩ := left
    rfl) in_themes
  have keyframe_names := names_of_forall₂ (fun item made left => by
    obtain ⟨_, _, -, -, rfl⟩ := left
    rfl) in_keyframes
  have style_names := names_of_forall₂ (fun item made left => by
    obtain ⟨_, _, -, -, named, -⟩ := left
    exact named) in_styles
  have classes : after.classes = ⟨start.classes.themes.insertAll themes,
      start.classes.keyframes.insertAll keyframes, start.classes.styles.insertAll styles⟩ := by
    rw [entered, ClassMap.enterAll_eq]
    simp [List.filterMap_map, Function.comp_def, ClassMap.Entry.theme?, ClassMap.Entry.keyframes?,
      ClassMap.Entry.style?]
  obtain ⟨-, -, -, once_styles⟩ := Manifest.keysOnce_iff.mp once
  obtain ⟨distinct, once_each⟩ := Json.keysOnce_object.mp once_styles
  refine ⟨in_styles.length_eq.symm, count_of_leavesStyle in_styles, ?_, ?_,
    ⟨last, again, ?_, ?_, unmoved⟩, fun _ _ => Manifest.keysOnce_ofText?⟩
  · intro name json member
    obtain ⟨⟨_, renders⟩, made, left⟩ := exists_right_of_forall₂ in_styles member
    obtain ⟨entry, node, read, parsed, rfl, definition, number, defined, -, known, retained⟩ := left
    have once_props := keysOnce_rendersOf (once_each _ member) read
    refine ⟨entry, node, definition, number, renders, read, parsed, defined, known, ?_, ?_⟩
    · rw [classes]
      exact NameMap.get?_insertAll_of_mem _ (style_names ▸ distinct) made
    · exact renders_byRules rests_after apart known once_props retained
  · intro name
    rw [classes]
    refine ⟨fun absent => ?_, fun absent => ?_, fun absent => ?_⟩
    · exact NameMap.get?_insertAll_of_not_mem _ (theme_names ▸ absent)
    · exact NameMap.get?_insertAll_of_not_mem _ (keyframe_names ▸ absent)
    · exact NameMap.get?_insertAll_of_not_mem _ (style_names ▸ absent)
  · rw [entered_again, entered, ClassMap.enterAll_again]
  · exact congrArg Sheet.text unmoved.sheet

/-- A global style, a style of two renders, one of them with a rule in an at-rule, and a style that
shares a declaration with it. -/
theorem classes_of_button :
    let config : Config := ⟨"x", .empty, [], .empty, .empty⟩
    let button : Json := .object [
      ("style", .object [("color", .text "red"),
        ("variants", .object [("size", .object [("lg", .object [
          ("@media print", .object [("width", .array [.text "2px", .text "1em"])])])])])]),
      ("element", .text "button"),
      ("renders", .array [.object [], .object [("size", .text "lg"), ("className", .text "own")]])]
    let manifest : Manifest :=
      ⟨[], [.object [("body", .object [("margin", .whole 0)])]], [],
        [("button", button), ("plain", .object [("style", .object [("color", .text "red")])])]⟩
    let start : Compilation :=
      ⟨((Engine.start Engine.drain config true).withScript []).run [], .empty⟩
    let after := (start.run (addManifest "app.json" manifest)).2
    let text := "body\x7bmargin:0\x7d.x-c-0\x7bcolor:red\x7d" ++
      "@media print\x7b.x-c-1\x7bwidth:2px;width:1em\x7d\x7d"
    manifest.keysOnce = true ∧ start.run (addManifest "app.json" manifest) = (.ok ⟨2, 3⟩, after) ∧
      after.engine.HashesApart ∧ after.HoldsStyle "button" button ∧
      after.classes.styles.get? "button" =
        some [⟨"button", "x-c-0"⟩, ⟨"button", "x-c-0 x-c-1 own"⟩] ∧
      after.engine.cssText = text ∧
      ∃ last, after.run (addManifest "app.json" manifest) = (.ok ⟨2, 3⟩, last) ∧
        last.classes = after.classes ∧ last.engine.cssText = text := by
  intro config button manifest start after text
  have reached : start.engine = ((Engine.start Engine.drain config true).withScript []).run [] :=
    rfl
  have once : manifest.keysOnce = true := by decide
  have evaluated : (start.run (addManifest "app.json" manifest)).1 = .ok ⟨2, 3⟩ ∧
      (after.engine.hashed.map Hash.content).Nodup ∧
      after.classes.styles.get? "button" =
        some [⟨"button", "x-c-0"⟩, ⟨"button", "x-c-0 x-c-1 own"⟩] ∧
          after.engine.cssText = text := by
    decide +kernel
  obtain ⟨answer, distinct, classes, written⟩ := evaluated
  have compiled : start.run (addManifest "app.json" manifest) = (.ok ⟨2, 3⟩, after) :=
    Prod.mk.eta.symm.trans (congrArg (·, after) answer)
  have apart := Engine.apart_of_nodup distinct
  obtain ⟨-, -, held, -, ⟨last, again, same_classes, same_text, -⟩, -⟩ :=
    classes_of_manifest reached once compiled apart
  exact ⟨once, compiled, apart, held "button" button List.mem_cons_self, classes, written,
    last, again, same_classes, same_text.trans written⟩

end Manifests

end Compilation

end AtomicCss
