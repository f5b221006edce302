import AtomicCss.Proofs.Engine.Repetition

/-!
What an engine retains of an operation that succeeded.

Of an operation that asks for no classes it retains the texts; of a render, the classes of the
declarations. Neither is lost when the engine goes on, and both are all that it takes to perform the
operation again.
-/

namespace AtomicCss

namespace Engine

/-- What every engine is between two calls. -/
structure AtRest (engine : Engine) : Prop where
  sorted : engine.sheet.Sorted
  kept : engine.Kept
  tidy : engine.Tidy
  idle : engine.Idle

variable {first second engine after later : Engine}

theorem Consistent.fits (consistent : engine.Consistent) : engine.Fits := by
  have distinct : ((engine.index.rules.map (·.slot)).map UInt64.toNat).Nodup :=
    consistent.slots.map fun _ _ => UInt64.toNat_inj.mp
  have within : (engine.index.rules.map (·.slot)).map UInt64.toNat ⊆ List.range UInt64.size := by
    intro slot member
    obtain ⟨own, -, rfl⟩ := List.mem_map.mp member
    exact List.mem_range.mpr own.toNat_lt_size
  have few := (distinct.subperm within).length_le
  rwa [List.length_map, List.length_map, List.length_range] at few

theorem AtRest.filed (rests : engine.AtRest) (apart : engine.HashesApart) : engine.Filed :=
  rests.tidy (rests.kept apart).fits

/-- What calls between two engines at rest come to. -/
structure Proceeds (first second : Engine) : Prop where
  rests : first.AtRest → second.AtRest
  grows : first.AtRest → Grows first second
  seen : first.sheet.seen ⊆ second.sheet.seen

theorem proceeds_of (continues : Continues first second) (inserts : InsertsSome first second)
    (idle : first.Idle → second.Idle) : Proceeds first second where
  rests rests := by
    obtain ⟨-, sorted, kept⟩ := continues.1 rests.sorted
    exact ⟨sorted, kept rests.kept, (continues.2 rests.sorted).tidy rests.tidy, idle rests.idle⟩
  grows rests := (continues.1 rests.sorted).1
  seen := by
    obtain ⟨_, inserted⟩ := inserts
    exact inserted.seen

theorem proceeds_holdsAcross : HoldsAcross drain Proceeds where
  refl engine := ⟨id, fun _ => grows_composes.refl engine, List.Subset.refl _⟩
  trans earlier later :=
    ⟨later.rests ∘ earlier.rests,
      fun rests => grows_composes.trans (earlier.grows rests) (later.grows (earlier.rests rests)),
      List.Subset.trans earlier.seen later.seen⟩
  compiled engine definition :=
    proceeds_of ((continues_holdsAcross continues_drain).compiled engine definition)
      ((insertsSome_holdsAcross insertsSome_drain).compiled engine definition)
      (idle_holdsAcross.compiled engine definition)
  text engine group css early :=
    proceeds_of ((continues_holdsAcross continues_drain).text engine group css early)
      ((insertsSome_holdsAcross insertsSome_drain).text engine group css early)
      (idle_holdsAcross.text engine group css early)
  asked engine style selection override known :=
    proceeds_of
      ((continues_holdsAcross continues_drain).asked engine style selection override known)
      ((insertsSome_holdsAcross insertsSome_drain).asked engine style selection override known)
      (idle_holdsAcross.asked engine style selection override known)

theorem atRest_run (config : Config) (replicated : Bool) (script : List (List Request))
    (requests : List Request) :
    (((start drain config replicated).withScript script).run requests).AtRest := by
  obtain ⟨-, sorted, -, tidy, kept, -⟩ := (continues_run config replicated script requests).reached
  exact ⟨sorted, kept, tidy, idle_holdsAcross.run _ requests (idle_start config replicated script)⟩

/-- The sheet, the index and the replica are the same. -/
structure Unmoved (first second : Engine) : Prop where
  sheet : second.sheet = first.sheet
  index : second.index = first.index
  replica : second.replica = first.replica

theorem unmoved_composes : Composes Unmoved where
  refl _ := ⟨rfl, rfl, rfl⟩
  trans earlier later :=
    ⟨later.sheet.trans earlier.sheet, later.index.trans earlier.index,
      later.replica.trans earlier.replica⟩

theorem Unmoved.apart (unmoved : Unmoved first second) (apart : first.HashesApart) :
    second.HashesApart := by
  rwa [HashesApart, hashed, unmoved.index, unmoved.sheet]

section Renders

variable {component : Component} {props : Keyed Json} {rendered : RenderedElement}

/-- What an engine retains of a render: the classes of the declarations that the props lead to. -/
def Renders (engine : Engine) (component : Component) (props : Keyed Json)
    (rendered : RenderedElement) :
    Prop :=
  ∃ reading declarations classes, component.read props = .ok reading ∧
    engine.declarations component.style.definition
      (component.style.definition.normalize reading.selection) reading.override = .ok declarations ∧
    List.Forall₂ engine.Has classes declarations ∧
    rendered = ⟨reading.element, Component.joinClasses (" ".intercalate classes) reading.extraClass,
      reading.forwarded⟩

theorem Renders.grow (grows : Grows first second)
    (renders : first.Renders component props rendered) :
    second.Renders component props rendered := by
  obtain ⟨reading, declarations, classes, read, found, given, same⟩ := renders
  exact ⟨reading, declarations, classes, read, (grows.declarations _ _ _).trans found,
    given.imp fun _ _ => Has.grow grows, same⟩

theorem renders_of_rendered (rests : engine.AtRest) (apart : engine.HashesApart)
    (known : engine.style? component.style.number = some component.style)
    (once : (Operation.render component props).NamesOnce)
    (answered : engine.renderWith drain component props = (.ok rendered, after)) :
    after.Renders component props rendered := by
  cases read : component.read props with
  | error error => simp [renderWith, read] at answered
  | ok reading =>
    have grows := (proceeds_holdsAcross.renderWith engine component props known).grows rests
    rw [answered] at grows
    rw [renderWith_eq drain engine read] at answered
    obtain ⟨told, rfl⟩ := Prod.mk.inj answered
    obtain ⟨text, asked, rfl⟩ := ok_of_map_eq_ok told
    have filed := rests.filed apart
    obtain ⟨declarations, classes, found, rfl, given⟩ :=
      answered_of_memo rests.sorted filed.numbered filed.memo known
        (namesOnce_normalize component.style.definition (once reading read)) (className_eq asked)
    exact ⟨reading, declarations, classes, read, (grows.declarations _ _ _).trans found, given, rfl⟩

/-- What is retained is rendered again, also under another number. -/
theorem Renders.again (renders : engine.Renders component props rendered) (rests : engine.AtRest)
    (apart : engine.HashesApart) {number : Nat → Nat}
    (known : engine.style? (component.renumber number).style.number =
      some (component.renumber number).style)
    (once : (Operation.render component props).NamesOnce) :
    ∃ memo, engine.renderWith drain (component.renumber number) props =
      (.ok rendered, { engine with memo }) := by
  obtain ⟨reading, declarations, classes, read, found, given, rfl⟩ := renders
  have read_again : (component.renumber number).read props = .ok reading := read
  obtain ⟨memo, asked⟩ := (rests.filed apart).className_of_has known
    (namesOnce_normalize component.style.definition (once reading read)) found given
      rests.idle.drain
  refine ⟨memo, ?_⟩
  rw [renderWith_eq drain engine read_again]
  exact congrArg _ asked

end Renders

end Engine

end AtomicCss
