import AtomicCss.Command.Build
import AtomicCss.Proofs.Files.Walks

/-!
Outputs of a build among its inputs.

A build compares the files that its paths list with its outputs by where they lead, but the files
that its globs match by how they are spelled.
-/

namespace AtomicCss

namespace Build

variable {tree : FileTree} {inputs : List String} {options : BuildOptions} {files : List Path}

/-- Whether a build takes in what a walk found: a manifest that a glob among the inputs matches, and
neither an ignored glob nor an output that is read as one. -/
structure Takes (tree : FileTree) (inputs : List String) (options : BuildOptions)
    (found : Scan.Found) : Prop where
  walked : found ∈ Scan.walkBase tree Scan.defaultOptions
  wanted : Scan.isWanted Scan.defaultOptions found.path = true
  matched : ∃ source ∈ inputs, isPath tree source = false ∧ found.IsMatchedBy source
  kept : ∀ source ∈ options.ignored ++ options.outputs, ¬ found.IsMatchedBy source

theorem globbed_eq_ok
    (read : globbed tree (inputs.filter fun input => !isPath tree input) options = .ok files) :
    ∃ kept : List Scan.Found, files = Path.sort (kept.map (·.path)) ∧
      ∀ found, found ∈ kept ↔ Takes tree inputs options found := by
  unfold globbed at read
  split at read
  · next none_given =>
    obtain rfl := Except.ok.inj read
    refine ⟨[], rfl, fun found => ⟨fun member => absurd member List.not_mem_nil, ?_⟩⟩
    rintro ⟨-, -, ⟨source, member, unlisted, -⟩, -⟩
    simp only [List.isEmpty_iff, List.filter_eq_nil_iff] at none_given
    exact absurd (by simp [unlisted]) (none_given source member)
  · next some_given =>
    obtain ⟨result, scanned, last⟩ := bind_eq_ok.mp read
    obtain rfl := Except.ok.inj last
    unfold Scan.globs at scanned
    rw [if_neg some_given] at scanned
    obtain ⟨globs, taken, scanned⟩ := bind_eq_ok.mp scanned
    obtain ⟨ignored, left_out, last⟩ := bind_eq_ok.mp scanned
    obtain rfl := Except.ok.inj last
    refine ⟨_, rfl, fun found => ?_⟩
    simp only [List.mem_filter, Bool.and_eq_true, Bool.not_eq_true', ← Bool.not_eq_true,
      Scan.isMatched_iff taken, Scan.isMatched_iff left_out]
    constructor
    · rintro ⟨walked, ⟨⟨source, member, matched⟩, kept⟩, wanted⟩
      obtain ⟨member, unlisted⟩ := member
      exact ⟨walked, wanted, ⟨source, member, by simpa using unlisted, matched⟩,
        fun other inside held => kept ⟨other, inside, held⟩⟩
    · rintro ⟨walked, wanted, ⟨source, member, unlisted, matched⟩, kept⟩
      exact ⟨walked, ⟨⟨source, ⟨member, by simpa using unlisted⟩, matched⟩,
        fun ⟨other, inside, held⟩ => kept other inside held⟩, wanted⟩

theorem listed_eq_ok (proper : tree.root.isProper = true)
    (read : listed tree inputs options = .ok files) {path : Path} (member : path ∈ files) :
    isOutput tree options path = false ∧ ∃ contents, tree.get? path = some (.file contents) := by
  unfold listed at read
  split at read
  · obtain rfl := Except.ok.inj read
    cases member
  obtain ⟨result, scanned, read⟩ := bind_eq_ok.mp read
  obtain ⟨ignored, -, last⟩ := bind_eq_ok.mp read
  obtain rfl := Except.ok.inj last
  obtain ⟨inside, kept⟩ := List.mem_filter.mp member
  simp only [Bool.and_eq_true, Bool.not_eq_true'] at kept
  refine ⟨kept.2, ?_⟩
  obtain ⟨found, each, last⟩ := bind_eq_ok.mp scanned
  obtain rfl := Except.ok.inj last
  obtain ⟨own, listed_own, inside⟩ := List.mem_flatten.mp (Path.mem_sort inside)
  obtain ⟨input, -, here⟩ := exists_of_mapM_eq_ok each listed_own
  split at here
  · next entry led =>
    obtain rfl := Except.ok.inj here
    exact Scan.exists_file_of_manifestsAt proper entry led inside
  · cases here

theorem isOutput_eq_false_iff {path : Path} {location : Location}
    (led : tree.location? path = some location) :
    isOutput tree options path = false ↔
      ∀ output ∈ options.outputs, tree.location? ⟨output⟩ ≠ some location := by
  simp [isOutput, led]

theorem manifests_eq_ok (made : manifests tree inputs options = .ok files) :
    ∃ (kept : List Scan.Found) (paths : List Path),
      files = Path.sort (Path.sort (kept.map (·.path)) ++ paths) ∧
      (∀ found, found ∈ kept ↔ Takes tree inputs options found) ∧
      listed tree (inputs.filter (isPath tree)) options = .ok paths := by
  rw [manifests, List.partition_eq_filter_filter] at made
  obtain ⟨globbed, by_globs, made⟩ := bind_eq_ok.mp made
  obtain ⟨paths, by_paths, last⟩ := bind_eq_ok.mp made
  obtain ⟨kept, rfl, taken⟩ := globbed_eq_ok by_globs
  exact ⟨kept, paths, (Except.ok.inj last).symm, taken, by_paths⟩

theorem exists_file_of_manifests (proper : tree.root.isProper = true)
    (made : manifests tree inputs options = .ok files) {file : Path} (member : file ∈ files) :
    ∃ contents, tree.get? file = some (.file contents) := by
  obtain ⟨kept, paths, rfl, taken, by_paths⟩ := manifests_eq_ok made
  rcases List.mem_append.mp (Path.mem_sort member) with walked | listed
  · obtain ⟨found, held, rfl⟩ := List.mem_map.mp (Path.mem_sort walked)
    exact (Scan.exists_file_of_walkBase proper ((taken found).mp held).walked).2
  · exact (listed_eq_ok proper by_paths listed).2

/-- A build reads an output exactly if a walk finds it and the build takes in what was found. -/
theorem reads_iff (proper : tree.root.isProper = true)
    (made : manifests tree inputs options = .ok files) {location : Location} {output : String}
    (member : output ∈ options.outputs) (denoted : tree.location? ⟨output⟩ = some location) :
    (∃ file ∈ files, tree.location? file = some location) ↔
      ∃ found, Takes tree inputs options found ∧ tree.location? found.path = some location := by
  have files_only : ∀ file ∈ files, ∃ contents, tree.get? file = some (.file contents) := fun _ =>
    exists_file_of_manifests proper made
  obtain ⟨kept, paths, rfl, taken, by_paths⟩ := manifests_eq_ok made
  constructor
  · rintro ⟨file, inside, led⟩
    rcases List.mem_append.mp (Path.mem_sort inside) with walked | listed
    · obtain ⟨found, held, rfl⟩ := List.mem_map.mp (Path.mem_sort walked)
      exact ⟨found, (taken found).mp held, led⟩
    · have no_output := (listed_eq_ok proper by_paths listed).1
      exact absurd denoted ((isOutput_eq_false_iff led).mp no_output output member)
  · rintro ⟨found, takes, led⟩
    -- Sorting may keep another spelling, which leads to the same place.
    obtain ⟨first, in_globbed, same⟩ :=
      Path.exists_mem_sort (List.mem_map_of_mem ((taken found).mpr takes))
    obtain ⟨file, in_files, again⟩ := Path.exists_mem_sort (List.mem_append_left paths in_globbed)
    obtain ⟨contents, held⟩ := files_only file in_files
    obtain ⟨there, file_led, -⟩ := Option.bind_eq_some_iff.mp held
    refine ⟨file, in_files, ?_⟩
    rw [file_led, FileTree.location?_unique (again.trans same) file_led led]

/-- Whether an output that a walk finds is spelled as the walk spells it, with no character that
globs read as more than itself. -/
def IsSpelledAsWalked (tree : FileTree) (output : String) : Prop :=
  ∀ location, tree.location? ⟨output⟩ = some location →
    ∀ found ∈ Scan.walkBase tree Scan.defaultOptions, tree.location? found.path = some location →
      Glob.IsPlain output ∧ (output = found.relative ∨ output = "./" ++ found.relative)

/-- A build does not read an output that its paths list, however that is spelled. But it compares
what its globs match with the spellings of the outputs, which it reads as globs themselves: an
output is read exactly if a walk finds it and takes it in. A plain output matches only as the walk
spells it. So no output is read if all inputs are paths, or if every output that a walk finds is
plain and spelled so. -/
theorem reads_outputs_by_spelling :
    ∀ (tree : FileTree) (inputs : List String) (options : BuildOptions) (files : List Path),
      tree.root.isProper = true → manifests tree inputs options = .ok files →
        (∀ output ∈ options.outputs, ∀ location, tree.location? ⟨output⟩ = some location →
          ((∃ file ∈ files, tree.location? file = some location) ↔
            ∃ found, Takes tree inputs options found ∧ tree.location? found.path = some location)) ∧
        (∀ found ∈ Scan.walkBase tree Scan.defaultOptions, ∀ source, Glob.IsPlain source →
          (found.IsMatchedBy source ↔ source = found.relative ∨ source = "./" ++ found.relative)) ∧
        ((∀ input ∈ inputs, isPath tree input = true) ∨
          (∀ output ∈ options.outputs, IsSpelledAsWalked tree output) →
          ∀ file ∈ files, isOutput tree options file = false) := by
  intro tree inputs options files proper made
  have plain {found : Scan.Found} (walked : found ∈ Scan.walkBase tree Scan.defaultOptions)
      {source : String} :=
    fun own : Glob.IsPlain source =>
      Scan.isMatchedBy_plain (Scan.exists_file_of_walkBase proper walked).1 own
  refine ⟨fun output member location denoted => reads_iff proper made member denoted,
    fun found walked source => plain walked, ?_⟩
  intro safe file member
  cases led : tree.location? file with
  | none => simp [isOutput, led]
  | some location =>
    refine (isOutput_eq_false_iff led).mpr fun output inside denoted => ?_
    obtain ⟨found, takes, same⟩ := (reads_iff proper made inside denoted).mp ⟨file, member, led⟩
    rcases safe with paths | spelled
    · obtain ⟨source, given, glob, -⟩ := takes.matched
      rw [paths source given] at glob
      cases glob
    · obtain ⟨own, spelling⟩ := spelled output inside location denoted found takes.walked same
      exact takes.kept output (List.mem_append_right _ inside)
        ((plain takes.walked own).mpr spelling)

/-- A class map beside a manifest, spelled with a slash too many: the glob finds it and the build
reads it, while the folder as an input leaves it out. -/
theorem reads_outputs_by_spelling_of_slashes :
    let tree : FileTree :=
      ⟨.folder [("work", .folder [("a.json", .file (some "")), ("classes.json", .file (some ""))])],
        ["work"]⟩
    let options : BuildOptions := { BuildOptions.initial with classes := some ".//classes.json" }
    manifests tree ["*.json"] options = .ok [⟨"./a.json"⟩, ⟨"./classes.json"⟩] ∧
      (∃ found, Takes tree ["*.json"] options found ∧
        tree.location? found.path = some ["work", "classes.json"]) ∧
      manifests tree ["."] options = .ok [⟨"./a.json"⟩] ∧
      isOutput tree options ⟨"./a.json"⟩ = false := by
  intro tree options
  have globbed : manifests tree ["*.json"] options = .ok [⟨"./a.json"⟩, ⟨"./classes.json"⟩] := by
    decide +kernel
  have listed : manifests tree ["."] options = .ok [⟨"./a.json"⟩] := by decide +kernel
  have proper : tree.root.isProper = true := by decide
  refine ⟨globbed, ?_, listed, ?_⟩
  · have reads := (reads_outputs_by_spelling tree _ options _ proper globbed).1
    apply (reads ".//classes.json" (by decide) ["work", "classes.json"] (by decide +kernel)).mp
    exact ⟨⟨"./classes.json"⟩, by simp, by decide +kernel⟩
  · have safe := (reads_outputs_by_spelling tree _ options _ proper listed).2.2
    exact safe (.inl (by decide +kernel)) _ List.mem_cons_self

end Build

end AtomicCss
