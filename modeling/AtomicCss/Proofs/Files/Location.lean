import AtomicCss.Files.Tree
import AtomicCss.Proofs.Files.Paths
import AtomicCss.Proofs.Keyed

/-!
Where paths lead.

A path is followed piece by piece, so what leads to a folder leads on to all that is in it. Pieces
that lead nowhere may close a path to a file, but no other difference between spellings of the same
components changes where they lead.
-/

namespace AtomicCss

namespace FileEntry

/-- Whether the text can name an entry of a folder. -/
def IsName (name : String) : Prop := '/' ∉ name.toList ∧ Path.isStep name = true ∧ name ≠ ".."

instance (name : String) : Decidable (IsName name) := inferInstanceAs (Decidable (_ ∧ _ ∧ _))

mutual

/-- Whether every folder in the entry has names for its entries, each once. -/
def isProper : FileEntry → Bool
  | file _ => true
  | folder entries => decide (entries.map (·.1)).Nodup && areProper entries

def areProper : List (String × FileEntry) → Bool
  | [] => true
  | (name, entry) :: rest => decide (IsName name) && entry.isProper && areProper rest

end

theorem areProper_iff {entries : List (String × FileEntry)} :
    areProper entries = true ↔ ∀ entry ∈ entries, IsName entry.1 ∧ entry.2.isProper = true := by
  induction entries with
  | nil => simp [areProper]
  | cons entry rest ih =>
    rw [areProper, Bool.and_eq_true, Bool.and_eq_true, decide_eq_true_eq, ih, List.forall_mem_cons]

theorem isProper_folder {entries : Keyed FileEntry} :
    (folder entries).isProper = true ↔
      entries.names.Nodup ∧ ∀ entry ∈ entries, IsName entry.1 ∧ entry.2.isProper = true := by
  rw [isProper, Bool.and_eq_true, decide_eq_true_eq, areProper_iff]
  rfl

theorem at?_append (entry : FileEntry) (front back : Location) :
    entry.at? (front ++ back) = (entry.at? front).bind (·.at? back) := by
  induction front generalizing entry with
  | nil => rfl
  | cons name rest ih =>
    cases entry with
    | file contents => rfl
    | folder entries =>
      rw [List.cons_append, at?, at?]
      cases Keyed.get? entries name with
      | none => rfl
      | some child => exact ih child

theorem isProper_of_at? {entry found : FileEntry} (proper : entry.isProper = true)
    {location : Location} (held : entry.at? location = some found) : found.isProper = true := by
  induction location generalizing entry with
  | nil =>
    cases held
    exact proper
  | cons name rest ih =>
    cases entry with
    | file contents => cases held
    | folder entries =>
      rw [at?] at held
      obtain ⟨child, inside, held⟩ := Option.bind_eq_some_iff.mp held
      exact ih ((isProper_folder.mp proper).2 _ (Keyed.mem_of_get? inside)).2 held

end FileEntry

namespace FileTree

open FileEntry (IsName)

theorem follow?_append (root : FileEntry) (location : Location) (front back : List String) :
    follow? root location (front ++ back) =
      (follow? root location front).bind fun middle => follow? root middle back := by
  induction front generalizing location with
  | nil => rfl
  | cons piece rest ih =>
    simp only [List.cons_append, follow?]
    split
    · rfl
    · split
      · exact ih location
      · split
        · exact ih _
        · split
          · exact ih _
          · rfl

theorem follow?_name {root : FileEntry} {location : Location} {name : String} (own : IsName name)
    (folder : isFolderAt root location = true)
    (held : (root.at? (location ++ [name])).isSome = true) :
    follow? root location [name] = some (location ++ [name]) := by
  simp [follow?, folder, own.2.1, own.2.2, held]

/-- A piece that leads nowhere leads only from a folder. -/
theorem follow?_idle {root : FileEntry} {location found : Location}
    (led : follow? root location [""] = some found) :
    found = location := by
  simp only [follow?, Path.isStep] at led
  split at led
  · cases led
  · simpa using led.symm

variable {tree : FileTree} {path : Path}

theorem location?_join {location : Location} (led : tree.location? path = some location)
    (folder : isFolderAt tree.root location = true) {name : String} (own : IsName name)
    (held : (tree.root.at? (location ++ [name])).isSome = true) :
    tree.location? (path.join name) = some (location ++ [name]) := by
  obtain ⟨text⟩ := path
  unfold location? at led
  split at led
  · cases led
  next shown =>
  have shown : text ≠ "" := by simpa using shown
  have step := follow?_name own folder held
  rcases Path.join_eq shown name with joined | ⟨front, rfl, joined⟩
  · have start : tree.startOf ⟨text ++ "/" ++ name⟩ = tree.startOf ⟨text⟩ := by
      rw [startOf, String.append_assoc, Path.isAbsolute_append shown, startOf]
    rw [joined, location?, if_neg (by simp), start, Path.pieces_slash, Path.pieces_of_name own.1,
      follow?_append, led]
    exact step
  · have start : tree.startOf ⟨front ++ "/" ++ name⟩ = tree.startOf ⟨front ++ "/"⟩ := by
      rw [startOf, Path.isAbsolute_append shown, startOf]
    have closed : Path.pieces ⟨front ++ "/"⟩ = Path.pieces ⟨front⟩ ++ [""] := by
      have pieces := Path.pieces_slash front ""
      rwa [String.append_empty] at pieces
    rw [closed, follow?_append] at led
    obtain ⟨middle, led, last⟩ := Option.bind_eq_some_iff.mp led
    obtain rfl := follow?_idle last
    rw [joined, location?, if_neg (by simp), start, Path.pieces_slash, Path.pieces_of_name own.1,
      follow?_append, led]
    exact step

/-- What leads to a folder leads on to what is in it. -/
theorem get?_join (proper : tree.root.isProper = true) {entries : List (String × FileEntry)}
    (led : tree.get? path = some (.folder entries)) {name : String} {child : FileEntry}
    (member : (name, child) ∈ entries) : tree.get? (path.join name) = some child := by
  obtain ⟨location, found, held⟩ := Option.bind_eq_some_iff.mp led
  obtain ⟨distinct, each⟩ := FileEntry.isProper_folder.mp (FileEntry.isProper_of_at? proper held)
  have inside : tree.root.at? (location ++ [name]) = some child := by
    rw [FileEntry.at?_append, held]
    simp [FileEntry.at?, (Keyed.get?_eq_some distinct).mpr member]
  have folder : isFolderAt tree.root location = true := by
    simp [isFolderAt, held, FileEntry.isFolder]
  rw [get?, location?_join found folder (each _ member).1 (by simp [inside])]
  exact inside

theorem isName_of_get? (proper : tree.root.isProper = true) {entries : List (String × FileEntry)}
    (led : tree.get? path = some (.folder entries)) {name : String} {child : FileEntry}
    (member : (name, child) ∈ entries) : IsName name := by
  obtain ⟨location, -, held⟩ := Option.bind_eq_some_iff.mp led
  exact ((FileEntry.isProper_folder.mp (FileEntry.isProper_of_at? proper held)).2 _ member).1

/-- Where steps lead, if they lead anywhere. -/
def climb (location : Location) (steps : List String) : Location :=
  steps.foldl
    (fun location step => if step = ".." then location.dropLast else location ++ [step]) location

theorem eq_climb {root : FileEntry} {location found : Location} {pieces : List String}
    (led : follow? root location pieces = some found) :
    found = climb location (pieces.filter Path.isStep) := by
  induction pieces generalizing location with
  | nil => exact (Option.some.inj led).symm
  | cons piece rest ih =>
    rw [follow?] at led
    split at led
    · cases led
    · split at led
      · next idle => rw [List.filter_cons_of_neg (by simpa using idle), ih led]
      · next step =>
        rw [List.filter_cons_of_pos (by simpa using step)]
        split at led
        · next up => rw [ih led, climb, climb, List.foldl_cons, if_pos up]
        · next down =>
          split at led
          · rw [ih led, climb, climb, List.foldl_cons, if_neg down]
          · cases led

/-- Paths with the same components lead to one place, if both lead anywhere. -/
theorem location?_unique {first second : Path} (same : first.components = second.components)
    {here there : Location} (led : tree.location? first = some here)
    (other : tree.location? second = some there) :
    here = there := by
  unfold location? at led other
  split at led
  · cases led
  split at other
  · cases other
  rw [eq_climb led, eq_climb other, startOf, startOf, Path.isAbsolute_eq, Path.isAbsolute_eq,
    ← Path.filterMap_components, ← Path.filterMap_components, same]

end FileTree

end AtomicCss
