import AtomicCss.Files.Scan
import AtomicCss.Proofs.Basic
import AtomicCss.Proofs.Files.Location
import AtomicCss.Proofs.Glob.Acceptance

/-!
What scans find.

Both ways of scanning follow a path into a folder, so each path that they find leads to a file. A
walk from the working folder spells what it finds in one way: its path from that folder, behind a
dot and a slash.
-/

namespace AtomicCss

open FileEntry (IsName)

namespace Scan

variable {tree : FileTree}

mutual

/-- What is listed under a path is a file that its path leads to. -/
theorem exists_file_of_manifestsAt (proper : tree.root.isProper = true) {path : Path}
    (entry : FileEntry) (led : tree.get? path = some entry) {found : Path}
    (member : found ∈ manifestsAt path entry) :
    ∃ contents, tree.get? found = some (.file contents) := by
  match entry with
  | .file contents =>
    rw [manifestsAt] at member
    rw [List.mem_singleton.mp member]
    exact ⟨contents, led⟩
  | .folder entries =>
    rw [manifestsAt] at member
    exact exists_file_of_manifestsIn proper entries led (List.Subset.refl _) member

theorem exists_file_of_manifestsIn (proper : tree.root.isProper = true) {path : Path}
    {all : List (String × FileEntry)} (entries : List (String × FileEntry))
    (led : tree.get? path = some (.folder all)) (within : entries ⊆ all) {found : Path}
    (member : found ∈ manifestsIn path entries) :
    ∃ contents, tree.get? found = some (.file contents) := by
  match entries with
  | [] => cases member
  | (name, entry) :: rest =>
    rw [manifestsIn] at member
    rcases List.mem_append.mp member with here | later
    · split at here
      · exact exists_file_of_manifestsAt proper entry
          (FileTree.get?_join proper led (within List.mem_cons_self)) here
      · cases here
    · exact exists_file_of_manifestsIn proper rest led (List.subset_of_cons_subset within) later

end

/-- Whether what was found lies below the folder that the walk starts in. -/
def Found.IsBelow (found : Found) : Prop :=
  found.path.text = "./" ++ found.relative ∧ found.relative ≠ "" ∧
    Text.hasSuffix "/" found.relative = false

/-- The folder that walks start in, before anything is found. -/
def atBase : Found := ⟨defaultOptions.base, ""⟩

theorem hasSuffix_append (front : String) {back : String} (shown : back ≠ "") :
    Text.hasSuffix "/" (front ++ back) = Text.hasSuffix "/" back := by
  simp only [Text.hasSuffix, List.isSuffixOf, String.toList_append, List.reverse_append]
  cases chars : back.toList.reverse with
  | nil => exact absurd (String.toList_eq_nil_iff.mp (List.reverse_eq_nil_iff.mp chars)) shown
  | cons c rest => rfl

theorem hasSuffix_name {name : String} (own : IsName name) : Text.hasSuffix "/" name = false := by
  apply eq_false_of_ne_true
  intro closed
  obtain ⟨front, whole⟩ := List.isSuffixOf_iff_suffix.mp closed
  apply own.1
  rw [← whole]
  exact List.mem_append_right _ List.mem_cons_self

theorem Found.isBelow_join {start : Found} (starts : start = atBase ∨ start.IsBelow) {name : String}
    (own : IsName name) :
    Found.IsBelow ⟨start.path.join name, (Path.join ⟨start.relative⟩ name).text⟩ := by
  have shown : name ≠ "" := (Path.isStep_iff.mp own.2.1).1
  rcases starts with rfl | ⟨text, more, unclosed⟩
  · have below : Path.join ⟨"."⟩ name = ⟨"./" ++ name⟩ := rfl
    have alone : Path.join ⟨""⟩ name = ⟨name⟩ := by simp [Path.join]
    simp only [atBase, defaultOptions, below, alone]
    exact ⟨rfl, shown, hasSuffix_name own⟩
  · have further : Path.join ⟨start.relative⟩ name = ⟨start.relative ++ "/" ++ name⟩ := by
      simp [Path.join, more, unclosed]
    have below : start.path.join name = ⟨"./" ++ start.relative ++ "/" ++ name⟩ := by
      simp [Path.join, text, hasSuffix_append "./" more, unclosed]
    rw [further, below]
    exact ⟨by simp only [String.append_assoc], by simp,
      by rw [hasSuffix_append _ shown, hasSuffix_name own]⟩

mutual

/-- What a walk finds is a file that its path leads to. -/
theorem exists_file_of_walk (proper : tree.root.isProper = true) {scope : IgnoreScope}
    {levels : List IgnoreLevel} {start : Found} (below : start.IsBelow) (entry : FileEntry)
    (led : tree.get? start.path = some entry) {found : Found}
    (member : found ∈ walk scope levels start entry) :
    found.IsBelow ∧ ∃ contents, tree.get? found.path = some (.file contents) := by
  match entry with
  | .file contents =>
    rw [walk] at member
    rw [List.mem_singleton.mp member]
    exact ⟨below, contents, led⟩
  | .folder entries =>
    rw [walk] at member
    exact exists_file_of_walkIn proper (.inr below) entries led (List.Subset.refl _) member

theorem exists_file_of_walkIn (proper : tree.root.isProper = true) {scope : IgnoreScope}
    {levels : List IgnoreLevel} {start : Found} (starts : start = atBase ∨ start.IsBelow)
    {all : List (String × FileEntry)} (entries : List (String × FileEntry))
    (led : tree.get? start.path = some (.folder all)) (within : entries ⊆ all) {found : Found}
    (member : found ∈ walkIn scope levels start entries) :
    found.IsBelow ∧ ∃ contents, tree.get? found.path = some (.file contents) := by
  match entries with
  | [] => cases member
  | (name, entry) :: rest =>
    rw [walkIn] at member
    rcases List.mem_append.mp member with here | later
    · split at here
      · cases here
      · have inside := within List.mem_cons_self
        exact exists_file_of_walk proper
          (Found.isBelow_join starts (FileTree.isName_of_get? proper led inside)) entry
          (FileTree.get?_join proper led inside) here
    · exact exists_file_of_walkIn proper starts rest led (List.subset_of_cons_subset within) later

end

theorem location?_base {location : Location}
    (led : tree.location? defaultOptions.base = some location) :
    FileTree.isFolderAt tree.root location = true := by
  change FileTree.follow? tree.root tree.workingFolder ["."] = _ at led
  simp only [FileTree.follow?] at led
  split at led
  · cases led
  · next folder =>
    obtain rfl : tree.workingFolder = location := by simpa [Path.isStep] using led
    simpa using folder

theorem exists_file_of_walkBase (proper : tree.root.isProper = true) {found : Found}
    (member : found ∈ walkBase tree defaultOptions) :
    found.IsBelow ∧ ∃ contents, tree.get? found.path = some (.file contents) := by
  unfold walkBase at member
  split at member
  · cases member
  split at member
  · cases member
  next location led =>
  split at member
  · cases member
  next entry held =>
  have folder := location?_base led
  cases entry with
  | file contents => simp [FileTree.isFolderAt, held, FileEntry.isFolder] at folder
  | folder entries =>
    rw [walk] at member
    refine exists_file_of_walkIn proper (.inl rfl) entries ?_ (List.Subset.refl _) member
    simp [FileTree.get?, led, held, atBase]

/-- Whether a glob matches what was found. -/
def Found.IsMatchedBy (found : Found) (source : String) : Prop :=
  ∃ glob, Glob.parse? .commandLine source = some glob ∧
    (glob.accepts found.relative = true ∨ glob.accepts found.path.text = true)

theorem isMatched_iff {sources : List String} {globs : List Glob}
    (parsed : parseGlobs sources = .ok globs) (found : Found) :
    found.isMatched globs = true ↔ ∃ source ∈ sources, found.IsMatchedBy source := by
  induction sources generalizing globs with
  | nil =>
    obtain rfl := Except.ok.inj parsed
    simp [Found.isMatched]
  | cons source rest ih =>
    rw [parseGlobs, List.mapM_cons] at parsed
    obtain ⟨glob, own, parsed⟩ := bind_eq_ok.mp parsed
    obtain ⟨globs, others, last⟩ := bind_eq_ok.mp parsed
    obtain rfl := Except.ok.inj last
    have parsed_own : Glob.parse? .commandLine source = some glob := by
      split at own
      · next found => rw [found, Except.ok.inj own]
      · cases own
    have again := ih others
    rw [Found.isMatched] at again
    rw [Found.isMatched, List.any_cons, Bool.or_eq_true, again, List.exists_mem_cons_iff]
    simp [Found.IsMatchedBy, parsed_own]

/-- A plain glob matches what has its own text for a path. -/
theorem isMatchedBy_plain {found : Found} (below : found.IsBelow) {source : String}
    (plain : Glob.IsPlain source) :
    found.IsMatchedBy source ↔ source = found.relative ∨ source = "./" ++ found.relative := by
  have parsed := Glob.parse?_plain plain .commandLine
  simp only [Found.IsMatchedBy, parsed, Option.some.injEq, exists_eq_left',
    Glob.accepts_plain plain parsed, below.1]
  exact or_congr eq_comm eq_comm

end Scan

end AtomicCss
