import AtomicCss.Proofs.Basic
import AtomicCss.Style.OfJson
import AtomicCss.Variant.Definition

/-!
Style definitions from JSON.

A style object is read whole before its definition is made, yet the definition comes to what a walk
makes that reads each entry and adds it at once. So what an entry adds does not depend on the
entries around it.

A compound variant may stand without its list. It is then read as any other object of styles, so it
may not have booleans for predicates, as it may in a list. With their texts it comes to the same
definition.
-/

namespace AtomicCss

theorem toOption_bind {Fail First Second : Type} {first : Except Fail First}
    {next : First → Except Fail Second} :
    (first >>= next).toOption = first.toOption.bind fun value => (next value).toOption := by
  cases first <;> rfl

/-- To read all entries and then walk over them is to walk over each as it is read. -/
theorem toOption_walk_cons {Fail Own Entry State : Type} {first : Except Fail Own}
    {rest : Except Fail (List Entry)} (entry : Own → Entry)
    {step : State → Entry → Except Fail State} (start : State) :
    ((first >>= fun value => rest >>= fun entries => .ok (entry value :: entries)) >>=
        fun entries => entries.foldlM step start).toOption =
      (first >>= fun value => step start (entry value)).toOption.bind
        fun next => (rest >>= fun entries => entries.foldlM step next).toOption := by
  cases first with
  | error error => rfl
  | ok value =>
    cases rest with
    | error error => exact (Option.bind_fun_none _).symm
    | ok entries =>
      change ((entry value :: entries).foldlM step start).toOption = _
      rw [List.foldlM_cons]
      exact toOption_bind

namespace StyleNode

mutual

/-- A value is read alike wherever it stands: its path only tells where an error is. -/
theorem toOption_valueOfJson (place : Place) (path other : String) (json : Json) :
    (valueOfJson place path json).toOption = (valueOfJson place other json).toOption := by
  match json with
  | .null | .text _ | .whole _ | .float _ => rfl
  | .bool _ => cases place <;> rfl
  | .array items =>
    rw [valueOfJson, valueOfJson, toOption_bind, toOption_bind,
      toOption_itemsOfJson place path other 0 items]
  | .object fields =>
    rw [valueOfJson, valueOfJson, toOption_bind, toOption_bind,
      toOption_entriesOfJson .style path other fields]

theorem toOption_itemsOfJson (place : Place) (path other : String) (index : Nat)
    (items : List Json) :
    (itemsOfJson place path index items).toOption =
      (itemsOfJson place other index items).toOption := by
  match items with
  | [] => rfl
  | item :: rest =>
    simp only [itemsOfJson, toOption_bind, toOption_itemsOfJson place path other (index + 1) rest,
      toOption_valueOfJson place (itemPath path index) (itemPath other index) item]

theorem toOption_entriesOfJson (place : Place) (path other : String)
    (fields : List (String × Json)) :
    (entriesOfJson place path fields).toOption = (entriesOfJson place other fields).toOption := by
  match fields with
  | [] => rfl
  | (key, value) :: rest =>
    simp only [entriesOfJson, toOption_bind, toOption_entriesOfJson place path other rest,
      toOption_valueOfJson place (keyPath path key) (keyPath other key) value]

end

/-- Whether an entry of a compound variant is a predicate that is a boolean. -/
def isFlag (entry : String × Json) : Bool :=
  entry.1 != "css" && match entry.2 with
    | .bool _ => true
    | _ => false

/-- The entry of a compound variant with its text for a boolean. -/
def spellFlag (entry : String × Json) : String × Json :=
  match entry.2 with
  | .bool flag => if entry.1 = "css" then entry
    else (entry.1, .text (if flag then "true" else "false"))
  | _ => entry

theorem compoundEntries_spellFlag (path : String) (fields : Keyed Json) :
    compoundEntries path (fields.map spellFlag) = compoundEntries path fields := by
  induction fields with
  | nil => rfl
  | cons field rest ih =>
    obtain ⟨key, value⟩ := field
    have own : compoundEntries path (spellFlag (key, value) :: rest.map spellFlag) =
        compoundEntries path ((key, value) :: rest.map spellFlag) := by
      cases value with
      | bool flag =>
        by_cases css : key = "css"
        · simp only [spellFlag, css, if_true]
        · simp only [spellFlag, css, if_false, compoundEntries]
          rfl
      | _ => rfl
    rw [List.map_cons, own, compoundEntries, compoundEntries, ih]

theorem any_isFlag_spellFlag (fields : Keyed Json) : (fields.map spellFlag).any isFlag = false := by
  rw [List.any_map, List.any_eq_false]
  intro entry _
  obtain ⟨key, value⟩ := entry
  cases value with
  | bool flag => by_cases css : key = "css" <;> simp [spellFlag, isFlag, css]
  | _ => simp [spellFlag, isFlag]

theorem toOption_entriesOfJson_of_isFlag {path : String} {fields : Keyed Json}
    (flag : fields.any isFlag = true) : (entriesOfJson .style path fields).toOption = none := by
  induction fields with
  | nil => cases flag
  | cons field rest ih =>
    obtain ⟨key, value⟩ := field
    rw [entriesOfJson, toOption_bind]
    rw [List.any_cons, Bool.or_eq_true] at flag
    rcases flag with own | later
    · cases value with
      | bool flag => rfl
      | _ => simp [isFlag] at own
    · simp only [toOption_bind, ih later, Option.bind_none, Option.bind_fun_none]

end StyleNode

namespace StyleDefinition

open StyleNode

/-- A list is no predicate, whatever it holds. -/
theorem toOption_compoundEntry_array {key : String} (predicate : key ≠ "css") (place : Place)
    (path owner : String) (compound : CompoundVariant) (items : List Json) :
    (valueOfJson place path (.array items) >>= compoundEntry owner compound key).toOption =
      none := by
  rw [valueOfJson]
  cases itemsOfJson place path 0 items with
  | error error => rfl
  | ok values =>
    change (compoundEntry owner compound key (.list values)).toOption = none
    unfold compoundEntry
    rw [if_neg predicate]
    rfl

theorem toOption_compoundEntry {key : String} {value : Json} (plain : isFlag (key, value) = false)
    (path other owner : String) (compound : CompoundVariant) :
    (valueOfJson .style path value >>= compoundEntry owner compound key).toOption =
      (valueOfJson (if key = "css" then .style else .flag) other value >>=
        compoundEntry owner compound key).toOption := by
  by_cases css : key = "css"
  · rw [if_pos css, toOption_bind, toOption_bind, toOption_valueOfJson .style path other]
  · rw [if_neg css]
    cases value with
    | bool flag => simp [isFlag, css] at plain
    | array items => rw [toOption_compoundEntry_array css, toOption_compoundEntry_array css]
    | object fields =>
      have same : valueOfJson .flag other (.object fields) = valueOfJson .style other
          (.object fields) := rfl
      rw [same, toOption_bind, toOption_bind, toOption_valueOfJson .style path other]
    | null | text _ | whole _ | float _ => rfl

/-- The compound variant that entries make. -/
def compoundOf (path : String) (start : CompoundVariant) (entries : StyleNode) :
    Except StyleError CompoundVariant :=
  entries.foldlM (fun compound entry => compoundEntry path compound entry.1 entry.2) start

/-- Without booleans for predicates a compound variant is read as one of a list and as a style
alike. -/
theorem toOption_compoundOf {fields : Keyed Json} (plain : fields.any isFlag = false)
    (path other owner : String) (start : CompoundVariant) :
    (entriesOfJson .style path fields >>= compoundOf owner start).toOption =
      (StyleNode.compoundEntries other fields >>= compoundOf owner start).toOption := by
  induction fields generalizing start with
  | nil => rfl
  | cons field rest ih =>
    obtain ⟨key, value⟩ := field
    rw [List.any_cons, Bool.or_eq_false_iff] at plain
    have own := toOption_compoundEntry plain.1 (keyPath path key) (keyPath other key) owner start
    unfold compoundOf at ih ⊢
    rw [entriesOfJson, StyleNode.compoundEntries]
    refine (toOption_walk_cons (Prod.mk key) start).trans ?_
    refine Eq.trans ?_ (toOption_walk_cons (Prod.mk key) start).symm
    simp only [own, ih plain.2]

/-- What a style object is made into after the entries that made a definition. -/
def ofEntries? (start : StyleDefinition) (fields : Keyed Json) : Option StyleDefinition :=
  (rootEntries fields >>= fun node =>
    node.foldlM (fun definition entry => definition.addEntry entry.1 entry.2) start).toOption

/-- The definition that a style object is read and made into. -/
def ofJson? (json : Json) : Option StyleDefinition := (ofJson json >>= parse).toOption

theorem ofEntries?_cons (start : StyleDefinition) (key : String) (value : Json)
    (rest : Keyed Json) :
    ofEntries? start ((key, value) :: rest) =
      (rootValue key value >>= start.addEntry key).toOption.bind (ofEntries? · rest) :=
  toOption_walk_cons (Prod.mk key) start

theorem ofEntries?_append (start : StyleDefinition) (fields others : Keyed Json) :
    ofEntries? start (fields ++ others) = (ofEntries? start fields).bind (ofEntries? · others) := by
  induction fields generalizing start with
  | nil => rfl
  | cons field rest ih =>
    obtain ⟨key, value⟩ := field
    rw [List.cons_append, ofEntries?_cons, ofEntries?_cons, Option.bind_assoc]
    simp only [ih]

theorem ofJson?_entry (fields others : Keyed Json) (key : String) (value : Json) :
    ofJson? (.object (fields ++ (key, value) :: others)) =
      (ofEntries? empty fields).bind fun definition =>
        (rootValue key value >>= definition.addEntry key).toOption.bind (ofEntries? · others) := by
  change ofEntries? empty (fields ++ (key, value) :: others) = _
  rw [ofEntries?_append]
  simp only [ofEntries?_cons]

/-- What a root entry of compound variants adds. -/
def addCompounds (definition : StyleDefinition) (value : Json) : Option StyleDefinition :=
  (rootValue "compoundVariants" value >>= definition.addEntry "compoundVariants").toOption

/-- The definition with the one compound variant whose entries are read. -/
def withCompound (definition : StyleDefinition) (read : Except StyleError StyleNode) :
    Option StyleDefinition :=
  (read >>= compoundOf (itemPath "compoundVariants" 0) ⟨[], []⟩).toOption.map
    fun compound => { definition with compounds := [compound] }

theorem toOption_addEntry_node (definition : StyleDefinition) (entries : StyleNode) :
    (definition.addEntry "compoundVariants" (.node entries)).toOption = definition.withCompound
      (.ok entries) := by
  have items : compoundItems 0 [.node entries] =
      compoundOf (itemPath "compoundVariants" 0) ⟨[], []⟩ entries >>= fun compound =>
        .ok [compound] := rfl
  change (compoundItems 0 [.node entries] >>= fun compounds =>
    Except.ok { definition with compounds }).toOption =
      (compoundOf (itemPath "compoundVariants" 0) ⟨[], []⟩ entries).toOption.map _
  rw [items]
  cases compoundOf (itemPath "compoundVariants" 0) ⟨[], []⟩ entries <;> rfl

theorem addCompounds_alone (definition : StyleDefinition) (compound : Keyed Json) :
    definition.addCompounds (.object compound) =
      definition.withCompound (entriesOfJson .style "compoundVariants" compound) := by
  have read : rootValue "compoundVariants" (.object compound) =
      entriesOfJson .style "compoundVariants" compound >>= fun entries => .ok (.node entries) := rfl
  rw [addCompounds, read]
  cases entriesOfJson .style "compoundVariants" compound with
  | error error => rfl
  | ok entries => exact toOption_addEntry_node definition entries

theorem addCompounds_listed (definition : StyleDefinition) (compound : Keyed Json) :
    definition.addCompounds (.array [.object compound]) =
      definition.withCompound
        (StyleNode.compoundEntries (itemPath "compoundVariants" 0) compound) := by
  have read : rootValue "compoundVariants" (.array [.object compound]) =
      StyleNode.compoundItems "compoundVariants" 0 [.object compound] >>= fun items =>
        .ok (.list items) := rfl
  rw [addCompounds, read, StyleNode.compoundItems]
  cases StyleNode.compoundEntries (itemPath "compoundVariants" 0) compound with
  | error error => rfl
  | ok entries => exact toOption_addEntry_node definition entries

theorem addCompounds_alone_eq {compound : Keyed Json} (plain : compound.any isFlag = false)
    (definition : StyleDefinition) :
    definition.addCompounds (.object compound) = definition.addCompounds
      (.array [.object compound]) := by
  rw [addCompounds_alone, addCompounds_listed, withCompound, withCompound,
    toOption_compoundOf plain "compoundVariants" (itemPath "compoundVariants" 0)]

theorem addCompounds_alone_of_isFlag {compound : Keyed Json} (flag : compound.any isFlag = true)
    (definition : StyleDefinition) : definition.addCompounds (.object compound) = none := by
  rw [addCompounds_alone, withCompound, toOption_bind, toOption_entriesOfJson_of_isFlag flag]
  rfl

theorem addCompounds_spellFlag (definition : StyleDefinition) (compound : Keyed Json) :
    definition.addCompounds (.object (compound.map spellFlag)) =
      definition.addCompounds (.array [.object compound]) := by
  rw [addCompounds_alone_eq (any_isFlag_spellFlag compound), addCompounds_listed,
    addCompounds_listed, compoundEntries_spellFlag]

/-- A compound variant that stands alone makes the definition that it makes in a list, unless one of
its predicates is a boolean. Then only the list is read, as it is with the texts for the
booleans. -/
theorem ofJson?_lone_compound (fields others compound : Keyed Json) :
    let document (variants : Json) :=
      Json.object (fields ++ ("compoundVariants", variants) :: others)
    let listed := document (.array [.object compound])
    ofJson? (document (.object compound)) = (if compound.any isFlag then none else ofJson? listed) ∧
      ofJson? listed = ofJson? (document (.object (compound.map spellFlag))) := by
  have entry (variants : Json) :
      ofJson? (.object (fields ++ ("compoundVariants", variants) :: others)) =
      (ofEntries? empty fields).bind fun definition =>
        (definition.addCompounds variants).bind (ofEntries? · others) :=
          ofJson?_entry fields others _ variants
  dsimp only
  constructor
  · cases flag : compound.any isFlag with
    | false => simp only [entry, addCompounds_alone_eq flag, Bool.false_eq_true, if_false]
    | true => simp only [entry, addCompounds_alone_of_isFlag flag, Option.bind_none,
        Option.bind_fun_none, if_true]
  · simp only [entry, addCompounds_spellFlag]

example : let compound := [("outlined", Json.bool true), ("css", .object [("color", .text "red")])]
    let read (variants : Json) :=
      (ofJson (.object [("compoundVariants", variants)]) >>= parse).toOption
    read (.object compound) = none ∧
      read (.array [.object compound]) =
        some ⟨[], [], [⟨[("outlined", "true")], [("color", .text "red")]⟩], []⟩ :=
  ⟨rfl, rfl⟩

end StyleDefinition

end AtomicCss
