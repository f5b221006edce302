import AtomicCss.Proofs.Basic
import AtomicCss.Style.OfJson

/-!
Which JSON values are style objects.

The parts of a document are listed in document order, each behind the steps that lead to it. The
grammar is a rule for each part: `null` stands nowhere, a boolean only where variant flags stand,
and the document and its compound variants are objects. Reading follows the rules, and an error
names the first part that breaks one.
-/

namespace AtomicCss

namespace Json

/-- A step into a value: to the entry of a key of an object, or to an item of an array. -/
inductive Step where
  | key (name : String)
  | item (index : Nat)
  deriving DecidableEq

def Step.isItem : Step → Bool
  | item _ => true
  | key _ => false

/-- A value in a document, and the steps that lead to it. -/
structure Part where
  steps : List Step
  value : Json

mutual

/-- A value and all values in it, in document order. -/
def parts (steps : List Step) : Json → List Part
  | array items => ⟨steps, array items⟩ :: itemParts steps 0 items
  | object fields => ⟨steps, object fields⟩ :: fieldParts steps fields
  | scalar => [⟨steps, scalar⟩]

def itemParts (steps : List Step) (index : Nat) : List Json → List Part
  | [] => []
  | item :: rest => item.parts (steps ++ [.item index]) ++ itemParts steps (index + 1) rest

def fieldParts (steps : List Step) : List (String × Json) → List Part
  | [] => []
  | (key, value) :: rest => value.parts (steps ++ [.key key]) ++ fieldParts steps rest

end

theorem mem_parts_self (steps : List Step) (json : Json) : ⟨steps, json⟩ ∈ json.parts steps := by
  cases json <;> exact List.mem_cons_self

mutual

/-- The other parts of a value lie below it. -/
theorem eq_or_below (steps : List Step) (json : Json) {part : Part}
    (member : part ∈ json.parts steps) :
    part = ⟨steps, json⟩ ∨ steps.length < part.steps.length := by
  match json with
  | .null | .bool _ | .whole _ | .float _ | .text _ => exact .inl (List.mem_singleton.mp member)
  | .array items =>
    rcases List.mem_cons.mp member with own | inside
    · exact .inl own
    · exact .inr (items_below steps 0 items inside)
  | .object fields =>
    rcases List.mem_cons.mp member with own | inside
    · exact .inl own
    · exact .inr (fields_below steps fields inside)

theorem items_below (steps : List Step) (index : Nat) (items : List Json) {part : Part}
    (member : part ∈ itemParts steps index items) : steps.length < part.steps.length := by
  match items with
  | [] => cases member
  | item :: rest =>
    rcases List.mem_append.mp member with here | later
    · rcases eq_or_below _ item here with rfl | deeper
      · simp
      · simp only [List.length_append, List.length_singleton] at deeper
        omega
    · exact items_below steps (index + 1) rest later

theorem fields_below (steps : List Step) (fields : List (String × Json)) {part : Part}
    (member : part ∈ fieldParts steps fields) : steps.length < part.steps.length := by
  match fields with
  | [] => cases member
  | (key, value) :: rest =>
    rcases List.mem_append.mp member with here | later
    · rcases eq_or_below _ value here with rfl | deeper
      · simp
      · simp only [List.length_append, List.length_singleton] at deeper
        omega
    · exact fields_below steps rest later

end

def stepText (path : String) : Step → String
  | .key name => keyPath path name
  | .item index => itemPath path index

/-- The text of a path: names behind dots, as far as anything stands before them, and indices in
brackets. -/
def pathText (steps : List Step) : String := steps.foldl stepText ""

theorem pathText_append (steps : List Step) (step : Step) :
    pathText (steps ++ [step]) = stepText (pathText steps) step := by
  rw [pathText, List.foldl_append]
  rfl

end Json

namespace StyleNode

open Json (Part Step parts itemParts fieldParts pathText)

/-- Where variant flags stand: the entries of a root `defaultVariants` object, and those of the
objects in a root `compoundVariants` array but for their styles; in lists too. -/
def isFlagPlace : List Step → Bool
  | .key list :: .item _ :: .key name :: deeper =>
    list == "compoundVariants" && name != "css" && deeper.all Step.isItem
  | .key defaults :: .key _ :: deeper => defaults == "defaultVariants" && deeper.all Step.isItem
  | _ => false

def isCompoundPlace : List Step → Bool
  | [.key list, .item _] => list == "compoundVariants"
  | _ => false

/-- Whether a part breaks a rule of the grammar. -/
def offends (part : Part) : Bool :=
  match part.value with
  | .null => true
  | .bool _ => !isFlagPlace part.steps
  | .object _ => false
  | _ => part.steps.isEmpty || isCompoundPlace part.steps

/-- The error that names a part. -/
def offence (part : Part) : StyleError :=
  if part.steps.isEmpty then .invalid rootPath (.rootNotObject part.value.kind)
  else if isCompoundPlace part.steps then .invalid (pathText part.steps)
    (.compoundFound part.value.kind)
  else .invalid (pathText part.steps) (.notCssValue part.value.kind)

/-- What is found where parts are read: the error of the first one that offends, if there is one. -/
def Reads {Found : Type} (found : Except StyleError Found) (parts : List Part) : Prop :=
  match parts.find? offends with
  | some part => found = .error (offence part)
  | none => ∃ value, found = .ok value

section Reads

variable {Found Next : Type} {found : Except StyleError Found} {first second : List Part}
  {part : Part}

theorem reads_nil (value : Found) : Reads (.ok value) [] := ⟨value, rfl⟩

theorem Reads.bind {next : Found → Except StyleError Next} (own : Reads found first)
    (later : ∀ value, Reads (next value) second) : Reads (found >>= next) (first ++ second) := by
  unfold Reads at own ⊢
  rw [List.find?_append]
  cases offending : first.find? offends with
  | some part =>
    rw [offending] at own
    rw [own]
    rfl
  | none =>
    rw [offending] at own
    obtain ⟨value, rfl⟩ := own
    exact later value

theorem Reads.map (own : Reads found first) (f : Found → Next) :
    Reads (found >>= fun value => .ok (f value)) first := by
  simpa using own.bind fun value => reads_nil (f value)

theorem reads_offending (breaks : offends part = true) (rest : List Part) :
    Reads (.error (offence part) : Except StyleError Found) (part :: rest) := by
  rw [Reads, List.find?_cons_of_pos breaks]

theorem Reads.cons (keeps : offends part = false) (own : Reads found first) :
    Reads found (part :: first) := by
  rwa [Reads, List.find?_cons_of_neg (by simp [keeps])]

theorem Reads.eq_error_iff (own : Reads found first) {error : StyleError} :
    found = .error error ↔ ∃ part, first.find? offends = some part ∧ error = offence part := by
  unfold Reads at own
  cases offending : first.find? offends with
  | some part =>
    rw [offending] at own
    simp [own, eq_comm]
  | none =>
    rw [offending] at own
    obtain ⟨value, rfl⟩ := own
    simp

theorem Reads.exists_ok_iff (own : Reads found first) :
    (∃ value, found = .ok value) ↔ ∀ part ∈ first, offends part = false := by
  unfold Reads at own
  cases offending : first.find? offends with
  | some part =>
    rw [offending] at own
    have breaks := List.find?_some offending
    have member := List.mem_of_find?_eq_some offending
    simp only [own, reduceCtorEq, exists_false, false_iff]
    intro keeps
    rw [keeps part member] at breaks
    cases breaks
  | none =>
    rw [offending] at own
    simpa [own] using offending

end Reads

/-- Below the steps flags stand as `place` says, and no compound variants. -/
def Governs (place : Place) (steps : List Step) : Prop :=
  steps ≠ [] ∧ ∀ deeper, isCompoundPlace (steps ++ deeper) = false ∧
    isFlagPlace (steps ++ deeper) = (place = .flag && deeper.all Step.isItem)

theorem Governs.item {place : Place} {steps : List Step} (governs : Governs place steps)
    (index : Nat) :
    Governs place (steps ++ [.item index]) := by
  refine ⟨by simp, fun deeper => ?_⟩
  rw [List.append_assoc]
  exact governs.2 ([.item index] ++ deeper)

theorem Governs.key {place : Place} {steps : List Step} (governs : Governs place steps)
    (name : String) :
    Governs .style (steps ++ [.key name]) := by
  refine ⟨by simp, fun deeper => ?_⟩
  rw [List.append_assoc]
  have below := governs.2 ([.key name] ++ deeper)
  exact ⟨below.1, by simpa [Step.isItem] using below.2⟩

theorem Governs.offends_eq {place : Place} {steps : List Step} (governs : Governs place steps)
    (value : Json) :
    offends ⟨steps, value⟩ = match value with
      | .null => true
      | .bool _ => place = .style
      | _ => false := by
  obtain ⟨some_step, below⟩ := governs
  obtain ⟨no_compound, flag⟩ := below []
  rw [List.append_nil] at no_compound flag
  cases value <;> cases place <;> simp_all [offends]

theorem Governs.offence_eq {place : Place} {steps : List Step} (governs : Governs place steps)
    (value : Json) :
    offence ⟨steps, value⟩ = .invalid (pathText steps) (.notCssValue value.kind) := by
  obtain ⟨some_step, below⟩ := governs
  obtain ⟨no_compound, -⟩ := below []
  rw [List.append_nil] at no_compound
  simp [offence, some_step, no_compound]

mutual

theorem reads_value {place : Place} {steps : List Step} (governs : Governs place steps)
    (json : Json) :
    Reads (valueOfJson place (pathText steps) json) (json.parts steps) := by
  match json with
  | .null =>
    have read :
        Reads (.error (offence ⟨steps, .null⟩) : Except StyleError StyleValue) [⟨steps, .null⟩] :=
      reads_offending (governs.offends_eq .null) []
    rwa [governs.offence_eq] at read
  | .bool value =>
    cases place with
    | flag => exact (reads_nil _).cons (governs.offends_eq _)
    | style =>
      have read : Reads (.error (offence ⟨steps, .bool value⟩) : Except StyleError StyleValue)
          [⟨steps, .bool value⟩] := reads_offending (governs.offends_eq (.bool value)) []
      rwa [governs.offence_eq] at read
  | .text _ | .whole _ | .float _ => exact (reads_nil _).cons (governs.offends_eq _)
  | .array items =>
    exact ((reads_items governs.item 0 items).map StyleValue.list).cons (governs.offends_eq _)
  | .object fields =>
    exact ((reads_entries governs.key fields).map StyleValue.node).cons (governs.offends_eq _)

theorem reads_items {place : Place} {steps : List Step}
    (governs : ∀ index, Governs place (steps ++ [.item index])) (index : Nat) (items : List Json) :
    Reads (itemsOfJson place (pathText steps) index items) (itemParts steps index items) := by
  match items with
  | [] => exact reads_nil []
  | item :: rest =>
    have own := reads_value (governs index) item
    rw [Json.pathText_append] at own
    exact own.bind fun value => (reads_items governs (index + 1) rest).map (value :: ·)

theorem reads_entries {place : Place} {steps : List Step}
    (governs : ∀ name, Governs place (steps ++ [.key name])) (fields : List (String × Json)) :
    Reads (entriesOfJson place (pathText steps) fields) (fieldParts steps fields) := by
  match fields with
  | [] => exact reads_nil []
  | (key, value) :: rest =>
    have own := reads_value (governs key) value
    rw [Json.pathText_append] at own
    exact own.bind fun value => (reads_entries governs rest).map ((key, value) :: ·)

end

theorem governs_default (group : String) : Governs .flag [.key "defaultVariants", .key group] :=
  ⟨by simp, fun deeper => ⟨rfl, by simp [isFlagPlace]⟩⟩

theorem governs_compound (index : Nat) (name : String) :
    Governs (if name = "css" then .style else .flag) [.key "compoundVariants", .item index,
      .key name] := by
  refine ⟨by simp, fun deeper => ⟨rfl, ?_⟩⟩
  by_cases style : name = "css" <;> simp [isFlagPlace, style]

theorem governs_entry {key : String} (other : key ≠ "defaultVariants") (name : String) :
    Governs .style [.key key, .key name] :=
  ⟨by simp, fun deeper => ⟨rfl, by simp [isFlagPlace, other]⟩⟩

theorem governs_item {key : String} (other : key ≠ "compoundVariants") (index : Nat) :
    Governs .style [.key key, .item index] := by
  refine ⟨by simp, fun deeper => ?_⟩
  match deeper with
  | [] => simp [isCompoundPlace, isFlagPlace, other]
  | .key _ :: _ => simp [isCompoundPlace, isFlagPlace, other]
  | .item _ :: _ => simp [isCompoundPlace, isFlagPlace]

theorem pathText_key (key : String) : pathText [.key key] = key := by
  simp [pathText, Json.stepText, keyPath]

theorem reads_compoundEntries (index : Nat) (fields : List (String × Json)) :
    Reads (compoundEntries (itemPath "compoundVariants" index) fields)
      (fieldParts [.key "compoundVariants", .item index] fields) := by
  induction fields with
  | nil => exact reads_nil []
  | cons field rest ih =>
    obtain ⟨key, value⟩ := field
    have own := reads_value (governs_compound index key) value
    exact own.bind fun value => ih.map ((key, value) :: ·)

theorem reads_compoundItems (index : Nat) (items : List Json) :
    Reads (compoundItems "compoundVariants" index items)
      (itemParts [.key "compoundVariants"] index items) := by
  induction items generalizing index with
  | nil => exact reads_nil []
  | cons item rest ih =>
    have refused (later : List Part)
        (no_object : offends ⟨[.key "compoundVariants", .item index], item⟩ = true) :
        Reads (.error (.invalid (itemPath "compoundVariants" index) (.compoundFound item.kind)) :
          Except StyleError (List StyleValue)) (⟨[.key "compoundVariants", .item index],
            item⟩ :: later) :=
      reads_offending no_object later
    match item with
    | .object fields =>
      have own := reads_compoundEntries index fields
      exact (own.bind fun compound => (ih (index + 1)).map (StyleValue.node compound :: ·)).cons rfl
    | .null | .bool _ | .whole _ | .float _ | .text _ | .array _ => exact refused _ rfl

theorem reads_rootValue (key : String) (value : Json) :
    Reads (rootValue key value) (value.parts [.key key]) := by
  have refused (breaks : offends ⟨[.key key], value⟩ = true) :
      Reads (.error (.invalid key (.notCssValue value.kind)) : Except StyleError StyleValue)
        [⟨[.key key], value⟩] := by
    have named : offence ⟨[.key key], value⟩ = .invalid key (.notCssValue value.kind) := by
      simp [offence, isCompoundPlace, pathText_key]
    rw [← named]
    exact reads_offending breaks []
  unfold rootValue
  split
  · next flags =>
    exact ((reads_entries governs_default flags).map StyleValue.node).cons rfl
  · next items =>
    exact ((reads_compoundItems 0 items).map StyleValue.list).cons rfl
  · next no_flags no_compounds =>
    match value with
    | .null | .bool _ => exact refused rfl
    | .text _ | .whole _ | .float _ => exact (reads_nil _).cons rfl
    | .array items =>
      have other : key ≠ "compoundVariants" := fun same => no_compounds items same rfl
      have read :
          Reads (itemsOfJson .style (pathText [.key key]) 0 items) (itemParts [.key key] 0 items) :=
        reads_items (governs_item other) 0 items
      rw [pathText_key] at read
      exact (read.map StyleValue.list).cons rfl
    | .object fields =>
      have other : key ≠ "defaultVariants" := fun same => no_flags fields same rfl
      have read : Reads (entriesOfJson .style (pathText [.key key]) fields)
          (fieldParts [.key key] fields) :=
        reads_entries (governs_entry other) fields
      rw [pathText_key] at read
      exact (read.map StyleValue.node).cons rfl

theorem reads_rootEntries (fields : List (String × Json)) :
    Reads (rootEntries fields) (fieldParts [] fields) := by
  induction fields with
  | nil => exact reads_nil []
  | cons field rest ih =>
    obtain ⟨key, value⟩ := field
    exact (reads_rootValue key value).bind fun value => ih.map ((key, value) :: ·)

theorem reads_ofJson (json : Json) : Reads (ofJson json) (json.parts []) := by
  have refused (later : List Part) (breaks : offends ⟨[], json⟩ = true) :
      Reads (.error (.invalid rootPath (.rootNotObject json.kind)) : Except StyleError StyleNode)
        (⟨[], json⟩ :: later) := reads_offending breaks later
  match json with
  | .object fields => exact (reads_rootEntries fields).cons rfl
  | .null | .bool _ | .whole _ | .float _ | .text _ | .array _ => exact refused _ rfl

theorem isCompoundPlace_iff {steps : List Step} :
    isCompoundPlace steps = true ↔ ∃ index, steps = [.key "compoundVariants", .item index] := by
  unfold isCompoundPlace
  split
  · simp
  · next other =>
    constructor
    · nofun
    · rintro ⟨index, rfl⟩
      exact (other _ _ rfl).elim

theorem isFlagPlace_iff {steps : List Step} :
    isFlagPlace steps = true ↔
      (∃ group deeper, steps = .key "defaultVariants" :: .key group :: deeper ∧
        ∀ step ∈ deeper, step.isItem = true) ∨
      ∃ index name deeper, steps = .key "compoundVariants" :: .item index :: .key name :: deeper ∧
        name ≠ "css" ∧ ∀ step ∈ deeper, step.isItem = true := by
  match steps with
  | [] | [.item _] | [.key _] | .item _ :: _ :: _ | [.key _, .item _]
  | .key _ :: .item _ :: .item _ :: _ =>
    simp [isFlagPlace]
  | .key _ :: .key _ :: _ => simp [isFlagPlace]
  | .key _ :: .item _ :: .key _ :: _ => simp [isFlagPlace, and_assoc]

/-- A document is a style object just if it is an object, holds no `null`, all items of a root
`compoundVariants` array are objects, and every boolean is a variant flag or in a list of them.
Otherwise the error names the first part in document order that breaks one of these rules. -/
theorem ofJson_by_grammar (json : Json) :
    ((∃ node, ofJson json = .ok node) ↔
      (∃ fields, json = .object fields) ∧
      (∀ steps, ⟨steps, .null⟩ ∉ json.parts []) ∧
      (∀ index item, ⟨[.key "compoundVariants", .item index], item⟩ ∈ json.parts [] →
        ∃ fields, item = .object fields) ∧
      ∀ steps value, ⟨steps, .bool value⟩ ∈ json.parts [] →
        (∃ group deeper, steps = .key "defaultVariants" :: .key group :: deeper ∧
          ∀ step ∈ deeper, step.isItem = true) ∨
        ∃ index name deeper, steps = .key "compoundVariants" :: .item index :: .key name :: deeper ∧
          name ≠ "css" ∧ ∀ step ∈ deeper, step.isItem = true) ∧
    ∀ error, ofJson json = .error error ↔
      ∃ part, (json.parts []).find? offends = some part ∧ error = offence part := by
  refine ⟨?_, fun error => (reads_ofJson json).eq_error_iff⟩
  rw [(reads_ofJson json).exists_ok_iff]
  constructor
  · intro keeps
    refine ⟨?_, ?_, ?_, ?_⟩
    · have root := keeps _ (Json.mem_parts_self [] json)
      cases json with
      | object fields => exact ⟨fields, rfl⟩
      | _ => cases root
    · intro steps member
      cases keeps _ member
    · intro index item member
      have own := keeps _ member
      cases item with
      | object fields => exact ⟨fields, rfl⟩
      | _ => cases own
    · intro steps value member
      have own : (!isFlagPlace steps) = false := keeps _ member
      exact isFlagPlace_iff.mp (by simpa using own)
  · rintro ⟨⟨fields, rfl⟩, no_null, compounds, flags⟩ ⟨steps, value⟩ member
    have no_root (scalar : ∀ fields, value ≠ .object fields) : steps ≠ [] := by
      rintro rfl
      rcases Json.eq_or_below [] _ member with same | below
      · exact scalar fields (Json.Part.mk.inj same).2
      · exact absurd below (Nat.not_lt_zero _)
    have no_compound (scalar : ∀ fields, value ≠ .object fields) :
        isCompoundPlace steps = false := by
      by_contra compound
      obtain ⟨index, rfl⟩ := isCompoundPlace_iff.mp (by simpa using compound)
      obtain ⟨fields, same⟩ := compounds index value member
      exact scalar fields same
    cases value with
    | null => exact absurd member (no_null steps)
    | bool value =>
      have flag := isFlagPlace_iff.mpr (flags steps value member)
      simp [offends, flag]
    | object fields => rfl
    | whole _ | float _ | text _ | array _ =>
      simp [offends, no_root nofun, no_compound nofun]

example :
    ofJson (.object [("a", .object [("b", .array [.text "1px", .null])]), ("c", .bool true)]) =
    .error (.invalid "a.b[1]" (.notCssValue "null")) := rfl

end StyleNode

end AtomicCss
