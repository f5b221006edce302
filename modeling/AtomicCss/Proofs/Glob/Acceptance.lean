import AtomicCss.Glob.Basic

/-!
What globs accept.

Reading a byte leaves patterns of which one must accept the rest, so a pattern accepts the texts of
its language. A glob without special characters stands for a row of bytes, and accepts its own text
alone.
-/

namespace AtomicCss.Glob

namespace Pattern

/-- The texts that a pattern stands for. -/
inductive Matches : Pattern → List UInt8 → Prop where
  | blank : Matches blank []
  | byte {set : ByteSet} {c : UInt8} : set.contains c = true → Matches (byte set) [c]
  | seq {first second : Pattern} {front back : List UInt8} :
      Matches first front → Matches second back → Matches (seq first second) (front ++ back)
  | left {first second : Pattern} {bytes : List UInt8} : Matches first bytes →
      Matches (either first second) bytes
  | right {first second : Pattern} {bytes : List UInt8} : Matches second bytes →
      Matches (either first second) bytes
  | stop {body : Pattern} : Matches (star body) []
  | again {body : Pattern} {front back : List UInt8} :
      Matches body front → Matches (star body) back → Matches (star body) (front ++ back)

theorem matches_blank {bytes : List UInt8} : Matches blank bytes ↔ bytes = [] := by
  constructor
  · rintro ⟨⟩
    rfl
  · rintro rfl
    exact .blank

theorem matches_byte {set : ByteSet} {bytes : List UInt8} :
    Matches (byte set) bytes ↔ ∃ c, bytes = [c] ∧ set.contains c = true := by
  constructor
  · rintro (_ | contained)
    exact ⟨_, rfl, contained⟩
  · rintro ⟨c, rfl, contained⟩
    exact .byte contained

theorem matches_seq {first second : Pattern} {bytes : List UInt8} :
    Matches (seq first second) bytes ↔
      ∃ front back, bytes = front ++ back ∧ Matches first front ∧ Matches second back := by
  constructor
  · rintro (_ | _ | ⟨own, rest⟩)
    exact ⟨_, _, rfl, own, rest⟩
  · rintro ⟨front, back, rfl, own, rest⟩
    exact .seq own rest

theorem matches_either {first second : Pattern} {bytes : List UInt8} :
    Matches (either first second) bytes ↔ Matches first bytes ∨ Matches second bytes := by
  constructor
  · intro accepted
    cases accepted with
    | left own => exact .inl own
    | right own => exact .inr own
  · rintro (own | own)
    · exact .left own
    · exact .right own

theorem matches_followedBy {first second : Pattern} {bytes : List UInt8} :
    Matches (first.followedBy second) bytes ↔
      ∃ front back, bytes = front ++ back ∧ Matches first front ∧ Matches second back := by
  rw [← matches_seq]
  unfold followedBy
  split
  · constructor
    · exact fun accepted => .seq .blank accepted
    · intro accepted
      obtain ⟨_, _, rfl, own, rest⟩ := matches_seq.mp accepted
      obtain rfl := matches_blank.mp own
      exact rest
  · simp [matches_seq, matches_blank]
  · rfl

theorem acceptsBlank_iff {pattern : Pattern} :
    pattern.acceptsBlank = true ↔ Matches pattern [] := by
  induction pattern with
  | blank => simp [acceptsBlank, matches_blank]
  | byte set => simp [acceptsBlank, matches_byte]
  | seq first second own rest =>
    rw [acceptsBlank, Bool.and_eq_true, own, rest, matches_seq]
    constructor
    · rintro ⟨here, later⟩
      exact ⟨[], [], rfl, here, later⟩
    · rintro ⟨front, back, whole, here, later⟩
      obtain ⟨rfl, rfl⟩ := List.append_eq_nil_iff.mp whole.symm
      exact ⟨here, later⟩
  | either first second own rest => simp [acceptsBlank, matches_either, own, rest]
  | star body => simp [acceptsBlank, Matches.stop]

/-- Of a repeated pattern the first part that reads something reads the first byte. -/
theorem matches_star_cons {body : Pattern} {c : UInt8} {rest : List UInt8} :
    Matches (star body) (c :: rest) ↔
      ∃ front back, rest = front ++ back ∧ Matches body (c :: front) ∧
        Matches (star body) back := by
  constructor
  · intro accepted
    generalize pattern_eq : star body = pattern at accepted
    generalize bytes_eq : c :: rest = bytes at accepted
    induction accepted with
    | @again own front back here later _ ih =>
      cases pattern_eq
      cases front with
      | nil => exact ih rfl bytes_eq
      | cons d front =>
        obtain ⟨rfl, rfl⟩ := List.cons.inj bytes_eq
        exact ⟨front, back, rfl, here, later⟩
    | stop => cases bytes_eq
    | _ => cases pattern_eq
  · rintro ⟨front, back, rfl, own, later⟩
    exact .again own later

theorem matches_cons {pattern : Pattern} {c : UInt8} {rest : List UInt8} :
    Matches pattern (c :: rest) ↔ ∃ next ∈ pattern.partials c, Matches next rest := by
  induction pattern generalizing rest with
  | blank => simp [partials, matches_blank]
  | byte set =>
    simp only [partials, matches_byte, List.cons.injEq]
    constructor
    · rintro ⟨_, ⟨rfl, rfl⟩, contained⟩
      exact ⟨blank, by simp [contained], .blank⟩
    · rintro ⟨next, member, accepted⟩
      split at member
      · next contained =>
        obtain rfl := List.mem_singleton.mp member
        exact ⟨c, ⟨rfl, matches_blank.mp accepted⟩, contained⟩
      · cases member
  | either first second own other =>
    simp [partials, matches_either, own, other, or_and_right, exists_or]
  | seq first second own other =>
    simp only [partials, List.mem_append, List.mem_map]
    constructor
    · intro accepted
      obtain ⟨front, back, whole, here, later⟩ := matches_seq.mp accepted
      cases front with
      | nil =>
        obtain rfl : c :: rest = back := whole
        obtain ⟨next, member, accepted⟩ := other.mp later
        exact ⟨next, .inr (by rwa [if_pos (acceptsBlank_iff.mpr here)]), accepted⟩
      | cons d front =>
        obtain ⟨rfl, rfl⟩ := List.cons.inj whole
        obtain ⟨next, member, accepted⟩ := own.mp here
        exact ⟨_, .inl ⟨next, member, rfl⟩,
          matches_followedBy.mpr ⟨front, back, rfl, accepted, later⟩⟩
    · rintro ⟨_, ⟨next, member, rfl⟩ | member, accepted⟩
      · obtain ⟨front, back, rfl, here, later⟩ := matches_followedBy.mp accepted
        exact .seq (own.mpr ⟨next, member, here⟩) later
      · split at member
        · next blank => exact .seq (acceptsBlank_iff.mp blank) (other.mpr ⟨_, member, accepted⟩)
        · cases member
  | star body own =>
    simp only [partials, List.mem_map]
    rw [matches_star_cons]
    constructor
    · rintro ⟨front, back, rfl, here, later⟩
      obtain ⟨next, member, accepted⟩ := own.mp here
      exact ⟨_, ⟨next, member, rfl⟩, matches_followedBy.mpr ⟨front, back, rfl, accepted, later⟩⟩
    · rintro ⟨_, ⟨next, member, rfl⟩, accepted⟩
      obtain ⟨front, back, rfl, here, later⟩ := matches_followedBy.mp accepted
      exact ⟨front, back, rfl, own.mpr ⟨next, member, here⟩, later⟩

theorem anyAccepts_iff {patterns : List Pattern} {bytes : List UInt8} :
    anyAccepts patterns bytes = true ↔ ∃ pattern ∈ patterns, Matches pattern bytes := by
  induction bytes generalizing patterns with
  | nil => simp [anyAccepts, acceptsBlank_iff]
  | cons c rest ih =>
    simp only [anyAccepts, ih, List.mem_eraseDups, List.mem_flatMap, matches_cons]
    constructor
    · rintro ⟨next, ⟨pattern, member, inside⟩, accepted⟩
      exact ⟨pattern, member, next, inside, accepted⟩
    · rintro ⟨pattern, member, next, inside, accepted⟩
      exact ⟨next, ⟨pattern, member, inside⟩, accepted⟩

/-- Reading byte by byte decides what a pattern stands for. -/
theorem accepts_iff {pattern : Pattern} {bytes : List UInt8} :
    pattern.accepts bytes = true ↔ Matches pattern bytes := by
  simp [accepts, anyAccepts_iff]

end Pattern

open Pattern (Matches matches_followedBy matches_blank matches_byte)

theorem ByteSet.contains_single {byte c : UInt8} : (single byte).contains c = true ↔ c = byte := by
  simp only [contains, single, List.any_cons, List.any_nil, Bool.or_false, Bool.bne_false,
    Bool.and_eq_true, decide_eq_true_eq]
  constructor
  · rintro ⟨above, below⟩
    exact UInt8.le_antisymm below above
  · rintro rfl
    exact ⟨UInt8.le_refl _, UInt8.le_refl _⟩

theorem matches_row_singles {bytes found : List UInt8} :
    Matches (.row (bytes.map fun byte => .byte (.single byte))) found ↔ found = bytes := by
  induction bytes generalizing found with
  | nil => exact matches_blank
  | cons byte bytes ih =>
    rw [Pattern.row, List.map_cons, List.foldr_cons, ← Pattern.row, matches_followedBy]
    constructor
    · rintro ⟨front, back, rfl, own, rest⟩
      obtain ⟨c, rfl, same⟩ := matches_byte.mp own
      rw [ByteSet.contains_single.mp same, ih.mp rest]
      rfl
    · rintro rfl
      exact ⟨[byte], bytes, rfl, .byte (ByteSet.contains_single.mpr rfl), ih.mpr rfl⟩

/-- The characters that a glob does not read as themselves. -/
def specials : List Char := ['*', '?', '[', '\x7b', '\x7d', '\\']

/-- Whether a glob stands for its own text. -/
def IsPlain (source : String) : Prop := ∀ c ∈ source.toList, c ∉ specials

instance (source : String) : Decidable (IsPlain source) :=
  inferInstanceAs (Decidable (∀ c ∈ source.toList, c ∉ specials))

theorem readAll?_plain (dialect : Dialect) {cs : List Char} (plain : ∀ c ∈ cs, c ∉ specials)
    (reading : Reading) (outside : reading.groups = []) :
    ∃ last, reading.readAll? dialect cs =
      some { reading with branch := (cs.map Item.literal).reverse ++ reading.branch, last } := by
  induction cs generalizing reading with
  | nil => exact ⟨reading.last, by simp [Reading.readAll?]⟩
  | cons c rest ih =>
    obtain ⟨own, others⟩ := List.forall_mem_cons.mp plain
    have next : ∃ last, (reading.push (.literal c) c).readAll? dialect rest =
        some { reading with
          branch := ((c :: rest).map Item.literal).reverse ++ reading.branch, last } := by
      obtain ⟨last, read⟩ := ih others (reading.push (.literal c) c) outside
      exact ⟨last, by simpa [Reading.push] using read⟩
    have stands : reading.readAll? dialect (c :: rest) =
        (reading.push (.literal c) c).readAll? dialect rest := by
      rw [Reading.readAll?.eq_def]
      split <;> simp_all [specials, Reading.nextBranch]
    rw [stands]
    exact next

theorem parse?_plain {source : String} (plain : IsPlain source) (dialect : Dialect) :
    parse? dialect source = some ⟨source, source.toList.map .literal, dialect⟩ := by
  obtain ⟨last, read⟩ := readAll?_plain dialect plain Reading.start rfl
  simp only [parse?, read, Reading.items?]
  simp [Reading.inGroup, Reading.start]

theorem matches_literals {crosses : Bool} {cs : List Char} {bytes : List UInt8} :
    Matches (Item.rowPattern crosses (cs.map .literal)) bytes ↔
      bytes = Text.utf8 (String.ofList cs) := by
  induction cs generalizing bytes with
  | nil => exact matches_blank
  | cons c rest ih =>
    rw [List.map_cons, Item.rowPattern, matches_followedBy, Item.pattern, Item.literalPattern]
    have whole : String.ofList (c :: rest) = String.singleton c ++ String.ofList rest := by
      apply String.toList_inj.mp
      simp
    rw [whole, Text.utf8_append]
    constructor
    · rintro ⟨front, back, rfl, own, later⟩
      rw [matches_row_singles.mp own, ih.mp later]
    · rintro rfl
      exact ⟨_, _, rfl, matches_row_singles.mpr rfl, ih.mpr rfl⟩

/-- A plain glob accepts its own text alone. -/
theorem accepts_plain {source : String} (plain : IsPlain source) {dialect : Dialect} {glob : Glob}
    (parsed : parse? dialect source = some glob) {path : String} :
    glob.accepts path = true ↔ path = source := by
  rw [parse?_plain plain] at parsed
  cases parsed
  have row : pattern ⟨source, source.toList.map .literal, dialect⟩ =
      Item.rowPattern dialect.crossesFolders (source.toList.map .literal) := by
    cases source.toList <;> simp [pattern]
  rw [accepts, Pattern.accepts_iff, row, matches_literals, String.ofList_toList]
  exact ⟨fun same => Text.utf8_injective same, fun same => congrArg Text.utf8 same⟩

end AtomicCss.Glob
