import AtomicCss.Manifest.Basic
import AtomicCss.Proofs.Json.Reading

/-!
Manifests that hold each key once: all that are read from texts.
-/

namespace AtomicCss

theorem Json.keysOnce_record? {order : List String} {json : Json} {record : Keyed Json}
    (once : json.keysOnce = true) (found : json.record? order = some record) :
    ∀ field ∈ record, field.2.keysOnce = true := by
  unfold record? at found
  split at found
  · cases found
    exact (keysOnce_object.mp once).2
  · split at found
    · cases found
      intro field member
      exact keysOnce_array.mp once field.2 (List.of_mem_zip member).2
    · cases found
  · cases found

namespace Manifest

/-- Whether every object in the manifest, and every section by name, holds each of its keys once. -/
def keysOnce (manifest : Manifest) : Bool :=
  (Json.array [.object manifest.themes, .array manifest.global, .object manifest.keyframes,
    .object manifest.styles]).keysOnce

theorem keysOnce_iff {manifest : Manifest} :
    manifest.keysOnce = true ↔
      (Json.object manifest.themes).keysOnce = true ∧ (Json.array manifest.global).keysOnce = true ∧
        (Json.object manifest.keyframes).keysOnce = true ∧
          (Json.object manifest.styles).keysOnce = true := by
  simp [keysOnce, Json.keysOnce_array]

theorem keysOnce_namedSection? {record section_ : Keyed Json} {field : String}
    (once : ∀ field ∈ record, field.2.keysOnce = true)
    (found : namedSection? record field = some section_) :
    (Json.object section_).keysOnce = true := by
  unfold namedSection? at found
  split at found
  · cases found
    rfl
  · next json present =>
    have own := once _ (Keyed.mem_of_get? present)
    cases json with
    | object fields =>
      cases found
      exact own
    | _ => cases found

theorem keysOnce_listSection? {record : Keyed Json} {items : List Json} {field : String}
    (once : ∀ field ∈ record, field.2.keysOnce = true)
    (found : listSection? record field = some items) :
    (Json.array items).keysOnce = true := by
  unfold listSection? at found
  split at found
  · cases found
    rfl
  · next json present =>
    have own := once _ (Keyed.mem_of_get? present)
    cases json with
    | array items =>
      cases found
      exact own
    | _ => cases found

theorem keysOnce_ofJson? {json : Json} {manifest : Manifest}
    (once : ∀ record, json.record? fields = some record → ∀ field ∈ record, field.2.keysOnce = true)
    (found : ofJson? json = some manifest) : manifest.keysOnce = true := by
  simp only [ofJson?, Option.bind_eq_bind, Option.bind_eq_some_iff] at found
  obtain ⟨record, listed, themes, in_themes, global, in_global, keyframes, in_keyframes,
    styles, in_styles, last⟩ := found
  cases last
  have each := once record listed
  exact keysOnce_iff.mpr ⟨keysOnce_namedSection? each in_themes,
    keysOnce_listSection? each in_global,
    keysOnce_namedSection? each in_keyframes, keysOnce_namedSection? each in_styles⟩

theorem keysOnce_tidySections? {entries : List (Option String × Json.Draft)} {sections : Keyed Json}
    (plain : ∀ entry ∈ entries, entry.2.Plain) (found : tidySections? entries = some sections) :
    ∀ field ∈ sections, field.2.keysOnce = true := by
  induction entries generalizing sections with
  | nil =>
    cases found
    exact List.forall_mem_nil _
  | cons entry rest ih =>
    obtain ⟨own, others⟩ := List.forall_mem_cons.mp plain
    simp only [tidySections?, Option.bind_eq_bind, Option.bind_eq_some_iff] at found
    obtain ⟨field, -, later, tidied, last⟩ := found
    have once := ih others tidied
    split at last
    · cases last
      exact once
    · split at last
      · cases last
      · obtain ⟨json, tidied_own, last⟩ := Option.bind_eq_some_iff.mp last
        cases last
        exact List.forall_mem_cons.mpr ⟨(own.tidy tidied_own).keysOnce, once⟩

/-- A manifest that was read from a text holds each key once. -/
theorem keysOnce_ofText? {text : String} {manifest : Manifest}
    (found : ofText? text = some manifest) :
    manifest.keysOnce = true := by
  simp only [ofText?, Option.bind_eq_bind, Option.bind_eq_some_iff] at found
  obtain ⟨draft, read, rest⟩ := found
  have plain := Json.plain_read? read
  split at rest
  · next entries =>
    obtain ⟨sections, tidied, found⟩ := Option.bind_eq_some_iff.mp rest
    cases plain with
    | object each =>
      apply keysOnce_ofJson? _ found
      intro record listed
      cases listed
      exact keysOnce_tidySections? each tidied
  · obtain ⟨json, tidied, found⟩ := Option.bind_eq_some_iff.mp rest
    exact keysOnce_ofJson? (fun record listed =>
      Json.keysOnce_record? (plain.tidy tidied).keysOnce listed) found

end Manifest

/-- The props of the renders of a style hold each key once. -/
theorem StyleEntry.keysOnce_renders {json : Json} {entry : StyleEntry} (once : json.keysOnce = true)
    (read : ofJson? json = some entry) :
    ∀ props ∈ entry.renders, ∀ prop ∈ props, prop.2.keysOnce = true := by
  simp only [ofJson?, Option.bind_eq_bind, Option.bind_eq_some_iff] at read
  obtain ⟨record, listed, style, -, element, -, items, all, renders, fields, last⟩ := read
  cases last
  have each := Json.keysOnce_record? once listed
  have once_items : ∀ item ∈ items, item.keysOnce = true := by
    apply Json.keysOnce_array.mp
    cases present : record.get? "renders" with
    | none =>
      rw [present] at all
      cases all
      rfl
    | some json =>
      have own := each _ (Keyed.mem_of_get? present)
      rw [present] at all
      cases json with
      | array listed_items =>
        cases all
        exact own
      | _ => cases all
  intro props member
  obtain ⟨item, inside, found⟩ := exists_of_mapM_eq_some fields member
  cases item with
  | object own =>
    cases found
    exact (Json.keysOnce_object.mp (once_items _ inside)).2
  | _ => cases found

end AtomicCss
