import AtomicCss.Proofs.Rule.MediaQuery
import AtomicCss.Proofs.Selector.Owner
import AtomicCss.Stylesheet.Layout

/-!
How stylesheet text is read.

Only the quotes and parentheses that are open decide whether a character is kept or ends a line. A
text that ends no line and closes all that it opens is whole: it is kept as it stands, wherever it
is read. So a block whose header and declarations are whole is read in one way, whatever was read
before it, and its lines are added to those that are written already.
-/

namespace AtomicCss

namespace Text.Chars

theorem trim_blank_append {front : List Char} (blank : ∀ c ∈ front, isBlank c = true)
    (back : List Char) :
    trim (front ++ back) = trim back := by
  rw [trim, List.dropWhile_append_of_pos blank, trim]

theorem trim_padded {front back : List Char} (front_blank : ∀ c ∈ front, isBlank c = true)
    (back_blank : ∀ c ∈ back, isBlank c = true) (cs : List Char) :
    trim (front ++ cs ++ back) = trim cs := by
  rw [trim_append back_blank, trim_blank_append front_blank]

theorem trim_ne_nil {cs : List Char} (shown : ink cs ≠ []) : trim cs ≠ [] := by
  intro empty
  rw [← ink_trim, empty] at shown
  exact shown rfl

end Text.Chars

namespace Layout

open Text.Chars

/-- The quote that is open, if any, and how many parentheses are. -/
structure Scan where
  quote : Option Char
  /-- Whether a backslash inside quotes came right before. -/
  shielded : Bool
  parentheses : Nat
  deriving DecidableEq

namespace Scan

def outside : Scan := ⟨none, false, 0⟩

/-- The characters that end a line outside of quotes and parentheses. -/
def marks : List Char := ['\x7b', ';', '\x7d']

/-- What is open after a character, unless the character ends a line. -/
def step (scan : Scan) (c : Char) : Option Scan :=
  match scan.quote with
  | some quote =>
    if scan.shielded then some { scan with shielded := false }
    else if c = '\\' then some { scan with shielded := true }
    else if c = quote then some { scan with quote := none }
    else some scan
  | none =>
    if c = '"' ∨ c = '\'' then some { scan with quote := some c }
    else if c = '(' then some { scan with parentheses := scan.parentheses + 1 }
    else if c = ')' then some { scan with parentheses := scan.parentheses - 1 }
    else if scan.parentheses = 0 ∧ c ∈ marks then none
    else some scan

def along (scan : Scan) (text : List Char) : Option Scan := text.foldlM step scan

@[simp] theorem along_nil (scan : Scan) : scan.along [] = some scan := rfl

theorem along_cons (scan : Scan) (c : Char) (cs : List Char) :
    scan.along (c :: cs) = (scan.step c).bind (·.along cs) := rfl

theorem along_append (scan : Scan) (front back : List Char) :
    scan.along (front ++ back) = (scan.along front).bind (·.along back) := by
  rw [along, List.foldlM_append]
  rfl

/-- What can be open: only a quotation mark opens a string, and a backslash shields in strings
only. -/
structure Sound (scan : Scan) : Prop where
  mark : ∀ quote, scan.quote = some quote → quote = '"' ∨ quote = '\''
  unshielded : scan.quote = none → scan.shielded = false

theorem sound_outside : outside.Sound := ⟨by simp [outside], fun _ => rfl⟩

theorem Sound.step {scan next : Scan} {c : Char} (sound : scan.Sound)
    (kept : scan.step c = some next) :
    next.Sound := by
  obtain ⟨mark, unshielded⟩ := sound
  constructor <;> grind [Scan.step]

theorem Sound.along {scan next : Scan} {text : List Char} (sound : scan.Sound)
    (kept : scan.along text = some next) : next.Sound := by
  induction text generalizing scan with
  | nil => exact Option.some.inj kept ▸ sound
  | cons c text ih =>
    rw [along_cons] at kept
    obtain ⟨middle, own, others⟩ := Option.bind_eq_some_iff.mp kept
    exact ih (sound.step own) others

/-- A blank changes nothing, unless a backslash takes it along. -/
theorem Sound.step_of_isBlank {scan : Scan} {c : Char} (sound : scan.Sound)
    (unshielded : scan.shielded = false) (blank : Text.isBlank c = true) :
    scan.step c = some scan := by
  have other : ∀ mark : Char, Text.isBlank mark = false → c ≠ mark := by
    rintro mark shown rfl
    rw [blank] at shown
    cases shown
  have unmarked : c ∉ marks := by
    simp only [marks, List.mem_cons, List.not_mem_nil, or_false, not_or]
    exact ⟨other _ (by decide), other _ (by decide), other _ (by decide)⟩
  have double : c ≠ '"' := other _ (by decide)
  have single : c ≠ '\'' := other _ (by decide)
  have slash : c ≠ '\\' := other _ (by decide)
  have parenthesis : c ≠ '(' := other _ (by decide)
  have closing : c ≠ ')' := other _ (by decide)
  obtain ⟨mark, -⟩ := sound
  grind [Scan.step]

theorem Sound.along_blank {scan : Scan} {gap : List Char} (sound : scan.Sound)
    (unshielded : scan.shielded = false) (blank : ∀ c ∈ gap, Text.isBlank c = true) :
    scan.along gap = some scan := by
  induction gap with
  | nil => rfl
  | cons c gap ih =>
    obtain ⟨own, others⟩ := List.forall_mem_cons.mp blank
    rw [along_cons, sound.step_of_isBlank unshielded own]
    exact ih others

end Scan

/-- A text that ends no line and closes all the quotes and parentheses that it opens. -/
def IsWhole (text : List Char) : Prop := Scan.outside.along text = some .outside

instance (text : List Char) : Decidable (IsWhole text) := inferInstanceAs (Decidable (_ = _))

theorem IsWhole.append {front back : List Char} (first : IsWhole front) (second : IsWhole back) :
    IsWhole (front ++ back) := by
  rw [IsWhole, Scan.along_append, first]
  exact second

theorem isWhole_of_blank {gap : List Char} (blank : ∀ c ∈ gap, Text.isBlank c = true) :
    IsWhole gap :=
  Scan.sound_outside.along_blank rfl blank

theorem IsWhole.padded {front text back : List Char} (whole : IsWhole text)
    (front_blank : ∀ c ∈ front, Text.isBlank c = true)
    (back_blank : ∀ c ∈ back, Text.isBlank c = true) :
    IsWhole (front ++ text ++ back) :=
  ((isWhole_of_blank front_blank).append whole).append (isWhole_of_blank back_blank)

/-- Blanks may stand behind a colon. -/
theorem IsWhole.spaced {front back gap : List Char} (whole : IsWhole (front ++ ':' :: back))
    (blank : ∀ c ∈ gap, Text.isBlank c = true) : IsWhole (front ++ ':' :: (gap ++ back)) := by
  rw [IsWhole, Scan.along_append] at whole ⊢
  obtain ⟨before, first, rest⟩ := Option.bind_eq_some_iff.mp whole
  rw [Scan.along_cons] at rest
  obtain ⟨behind, colon, last⟩ := Option.bind_eq_some_iff.mp rest
  have sound := Scan.sound_outside.along first
  have unshielded : behind.shielded = false := by
    obtain ⟨mark, unshielded⟩ := sound
    grind [Scan.step]
  rw [first, Option.bind_some, Scan.along_cons, colon, Option.bind_some, Scan.along_append,
    (sound.step colon).along_blank unshielded blank, Option.bind_some, last]

/-- A line of a stylesheet and how deep it is indented. -/
structure Line where
  depth : Nat
  text : List Char

def addLines (written : List Char) (lines : List Line) : List Char :=
  lines.foldl (fun written line => addLine written line.depth line.text) written

@[simp] theorem addLines_nil (written : List Char) : addLines written [] = written := rfl

@[simp] theorem addLines_cons (written : List Char) (line : Line) (lines : List Line) :
    addLines written (line :: lines) = addLines (addLine written line.depth line.text) lines := rfl

theorem addLines_append (written : List Char) (front back : List Line) :
    addLines written (front ++ back) = addLines (addLines written front) back :=
  List.foldl_append

/-- The lines around a block, for what stands before its brace. -/
def opening (depth : Nat) (header : List Char) : Line := ⟨depth, trim header ++ [' ', '\x7b']⟩

def ending (depth : Nat) : Line := ⟨depth, ['\x7d']⟩

def declaring (depth : Nat) (text : List Char) : Line := ⟨depth, declaration (trim text) ++ [';']⟩

namespace State

variable {state : State} {text : List Char}

def scan (state : State) : Scan := ⟨state.quote, state.shielded, state.parentheses⟩

/-- Nothing is open, and nothing but blanks was read since the last line. -/
structure Rests (state : State) : Prop where
  outside : state.scan = .outside
  blank : ∀ c ∈ state.pending, Text.isBlank c = true

/-- The state with another scan. -/
def withScan (state : State) (scan : Scan) : State :=
  { state with quote := scan.quote, shielded := scan.shielded, parentheses := scan.parentheses }

@[simp] theorem scan_withScan (state : State) (scan : Scan) : (state.withScan scan).scan = scan :=
  rfl

theorem read_of_step {c : Char} {next : Scan} (kept : state.scan.step c = some next) :
    state.read c = (state.keep c).withScan next := by
  obtain ⟨written, pending, depth, parentheses, quote, shielded⟩ := state
  cases quote with
  | some quote =>
    simp only [Scan.step, scan] at kept
    simp only [read, quoted, keep, withScan]
    grind
  | none =>
    simp only [Scan.step, scan, Scan.marks, List.mem_cons, List.not_mem_nil, or_false] at kept
    simp only [read, keep, withScan]
    grind

/-- Only a brace or a semicolon outside of quotes and parentheses ends a line. -/
theorem step_eq_none_iff {scan : Scan} {c : Char} :
    scan.step c = none ↔ scan.quote = none ∧ scan.parentheses = 0 ∧ c ∈ Scan.marks := by
  have unquoted : ∀ mark ∈ Scan.marks, mark ≠ '"' ∧ mark ≠ '\'' ∧ mark ≠ '(' ∧ mark ≠ ')' := by
    simp [Scan.marks]
  unfold Scan.step
  grind

theorem foldl_of_along {next : Scan} (kept : state.scan.along text = some next) :
    text.foldl read state =
      { state with pending := text.reverse ++ state.pending }.withScan next := by
  induction text generalizing state with
  | nil =>
    cases kept
    rfl
  | cons c text ih =>
    rw [Scan.along_cons] at kept
    obtain ⟨middle, own, others⟩ := Option.bind_eq_some_iff.mp kept
    have after : ((state.keep c).withScan middle).scan = middle := rfl
    rw [List.foldl_cons, read_of_step own, ih (after.symm ▸ others)]
    simp [keep, withScan]

/-- The state with the same scan that has written so much and keeps the rest, latest first. -/
def holding (state : State) (depth : Nat) (written pending : List Char) : State :=
  { state with depth, written, pending }

section Holding

variable {depth : Nat} {written pending : List Char}

@[simp] theorem depth_holding : (state.holding depth written pending).depth = depth := rfl

@[simp] theorem written_holding : (state.holding depth written pending).written = written := rfl

@[simp] theorem pending_holding : (state.holding depth written pending).pending = pending := rfl

@[simp] theorem scan_holding : (state.holding depth written pending).scan = state.scan := rfl

@[simp] theorem holding_holding {other : Nat} {text rest : List Char} :
    (state.holding depth written pending).holding other text rest = state.holding other text rest :=
      rfl

theorem Rests.holding (rests : state.Rests) (blank : ∀ c ∈ pending, Text.isBlank c = true) :
    (state.holding depth written pending).Rests :=
  ⟨rests.outside, blank⟩

theorem endItem_holding : (state.holding depth written pending).endItem =
    state.holding depth (if depth = 0 then written ++ ['\n'] else written) pending := by
  unfold endItem
  split <;> simp_all [State.holding]

end Holding

theorem foldl_of_isWhole (outside : state.scan = .outside) (whole : IsWhole text) :
    text.foldl read state = state.holding state.depth state.written
      (text.reverse ++ state.pending) := by
  have kept := foldl_of_along (outside.symm ▸ whole : state.scan.along text = some .outside)
  rw [kept, ← outside]
  rfl

theorem foldl_holding (outside : state.scan = .outside) (whole : IsWhole text) {depth : Nat}
    {written pending : List Char} : text.foldl read (state.holding depth written pending) =
      state.holding depth written (text.reverse ++ pending) :=
  foldl_of_isWhole outside whole

theorem read_of_step_eq_none {c : Char} (ends : state.scan.step c = none) :
    state.read c = if c = '\x7b' then state.openBlock
      else if c = ';' then state.flushDeclaration.endItem else state.closeBlock := by
  obtain ⟨unquoted, unenclosed, mark⟩ := step_eq_none_iff.mp ends
  change state.quote = none at unquoted
  change state.parentheses = 0 at unenclosed
  simp only [Scan.marks, List.mem_cons, List.not_mem_nil, or_false] at mark
  rcases mark with rfl | rfl | rfl <;> simp [read, unquoted, unenclosed]

section Marks

variable (outside : state.scan = .outside) (depth : Nat) (written pending : List Char)

include outside

theorem read_brace : (state.holding depth written pending).read '\x7b' =
    (state.holding depth written pending).openBlock :=
  read_of_step_eq_none (outside ▸ rfl)

theorem read_semicolon : (state.holding depth written pending).read ';' =
    (state.holding depth written pending).flushDeclaration.endItem :=
  read_of_step_eq_none (outside ▸ rfl)

theorem read_closing : (state.holding depth written pending).read '\x7d' =
    (state.holding depth written pending).closeBlock :=
  read_of_step_eq_none (outside ▸ rfl)

end Marks

section Kept

variable {gap : List Char} (blank : ∀ c ∈ gap, Text.isBlank c = true) (depth : Nat)
  (written : List Char)

include blank

theorem token_holding (text : List Char) :
    (state.holding depth written (text.reverse ++ gap)).token = trim text := by
  have reversed : (text.reverse ++ gap).reverse = gap.reverse ++ text := by simp
  rw [token, pending_holding, reversed,
    trim_blank_append fun c member => blank c (List.mem_reverse.mp member)]

theorem flushDeclaration_holding (shown : ink text ≠ []) :
    (state.holding depth written (text.reverse ++ gap)).flushDeclaration =
      state.holding depth (addLine written depth (declaration (trim text) ++ [';'])) [] := by
  simp only [flushDeclaration, token_holding blank, List.isEmpty_iff, if_neg (trim_ne_nil shown)]
  rfl

theorem flushDeclaration_of_blank :
    (state.holding depth written gap).flushDeclaration = state.holding depth written [] := by
  have nothing : (state.holding depth written gap).token = [] :=
    token_holding blank depth written []
  simp only [flushDeclaration, nothing, List.isEmpty_nil, if_true]
  rfl

theorem openBlock_holding (shown : ink text ≠ []) :
    (state.holding depth written (text.reverse ++ gap)).openBlock =
      state.holding (depth + 1) (addLine written depth (trim text ++ [' ', '\x7b'])) [] := by
  simp only [openBlock, token_holding blank, List.isEmpty_iff, if_neg (trim_ne_nil shown)]
  rfl

end Kept

theorem Rests.flushDeclaration (rests : state.Rests) :
    state.flushDeclaration = state.holding state.depth state.written [] :=
  flushDeclaration_of_blank rests.blank state.depth state.written

/-- The brace that closes a block ends a declaration as a semicolon does. -/
theorem read_semicolon_closing (outside : state.scan = .outside) {depth : Nat} (inside : 0 < depth)
    (written pending : List Char) : ((state.holding depth written pending).read ';').read '\x7d' =
      (state.holding depth written pending).read '\x7d' := by
  have flushed : (state.holding depth written pending).flushDeclaration =
    state.holding depth (state.holding depth written pending).flushDeclaration.written [] := rfl
  rw [read_semicolon outside, flushed, endItem_holding, if_neg (Nat.ne_of_gt inside),
    read_closing outside, read_closing outside, closeBlock,
    flushDeclaration_of_blank (List.forall_mem_nil _), ← flushed, closeBlock]

end State

section Block

variable {state : State} {text header css : List Char} {lines : List Line}

/-- Reading the text at rest, at a depth, writes these lines and comes to rest again. -/
def Prints (depth : Nat) (css : List Char) (lines : List Line) : Prop :=
  ∀ state : State, state.Rests → state.depth = depth →
    ∃ gap, (∀ c ∈ gap, Text.isBlank c = true) ∧
      css.foldl State.read state = state.holding depth (addLines state.written lines) gap

theorem foldl_statement (rests : state.Rests) (whole : IsWhole text) (shown : ink text ≠ []) :
    (text ++ [';']).foldl State.read state =
      (state.holding state.depth (addLines state.written [declaring state.depth text])
        []).endItem := by
  rw [List.foldl_append, State.foldl_of_isWhole rests.outside whole, List.foldl_cons,
    List.foldl_nil, State.read_semicolon rests.outside,
    State.flushDeclaration_holding rests.blank _ _ shown]
  rfl

theorem read_opening (rests : state.Rests) (whole : IsWhole header) (shown : ink header ≠ []) :
    (header.foldl State.read state).read '\x7b' =
      state.holding (state.depth + 1) (addLines state.written [opening state.depth header]) [] := by
  rw [State.foldl_of_isWhole rests.outside whole, State.read_brace rests.outside,
    State.openBlock_holding rests.blank _ _ shown]
  rfl

theorem foldl_block (rests : state.Rests) (whole : IsWhole header) (shown : ink header ≠ [])
    (body : Prints (state.depth + 1) css lines) :
    (header ++ '\x7b' :: (css ++ ['\x7d'])).foldl State.read state =
      (state.holding state.depth
        (addLines state.written (opening state.depth header :: (lines ++ [ending state.depth])))
          []).endItem := by
  obtain ⟨gap, blank, read⟩ := body
    (state.holding (state.depth + 1) (addLines state.written [opening state.depth header]) [])
    (rests.holding (List.forall_mem_nil _)) rfl
  rw [List.foldl_append, List.foldl_cons, read_opening rests whole shown, List.foldl_append, read,
    List.foldl_cons, List.foldl_nil, State.holding_holding, State.read_closing rests.outside,
    State.closeBlock, State.flushDeclaration_of_blank blank]
  simp only [State.depth_holding, Nat.add_sub_cancel, State.written_holding, addLines_cons,
    addLines_append, addLines_nil, ending]
  rfl

end Block

section Prints

variable {depth : Nat} {css other text : List Char} {lines more : List Line}

theorem prints_blank (blank : ∀ c ∈ css, Text.isBlank c = true) : Prints depth css [] := by
  rintro state rests rfl
  refine ⟨css.reverse ++ state.pending, ?_,
    State.foldl_of_isWhole rests.outside (isWhole_of_blank blank)⟩
  simpa [or_imp, forall_and] using ⟨blank, rests.blank⟩

theorem Prints.append (first : Prints depth css lines) (second : Prints depth other more) :
    Prints depth (css ++ other) (lines ++ more) := by
  rintro state rests rfl
  obtain ⟨gap, blank, read⟩ := first state rests rfl
  obtain ⟨last, last_blank, read_other⟩ := second _ (rests.holding blank) rfl
  refine ⟨last, last_blank, ?_⟩
  rw [List.foldl_append, read, read_other, addLines_append]
  rfl

theorem Prints.flatMap {Part : Type} {spell : Part → List Char} {own : Part → List Line}
    {parts : List Part} (each : ∀ part ∈ parts, Prints depth (spell part) (own part)) :
    Prints depth (parts.flatMap spell) (parts.flatMap own) := by
  induction parts with
  | nil => exact prints_blank (List.forall_mem_nil _)
  | cons part parts ih =>
    obtain ⟨own, others⟩ := List.forall_mem_cons.mp each
    exact own.append (ih others)

theorem prints_declaration (inside : 0 < depth) (whole : IsWhole text) (shown : ink text ≠ []) :
    Prints depth (text ++ [';']) [declaring depth text] := by
  rintro state rests rfl
  refine ⟨[], List.forall_mem_nil _, ?_⟩
  rw [foldl_statement rests whole shown, State.endItem_holding, if_neg (Nat.ne_of_gt inside)]

end Prints

section Rule

variable {texts : List (List Char)}

theorem intercalate_concat (front : List (List Char)) (last : List Char) :
    [';'].intercalate (front ++ [last]) = front.flatMap (· ++ [';']) ++ last := by
  induction front with
  | nil => simp
  | cons text front ih =>
    have joined : [';'].intercalate (text :: (front ++ [last])) =
        text ++ ';' :: [';'].intercalate (front ++ [last]) := by
      cases front <;> simp [List.intercalate]
    rw [List.cons_append, joined, ih]
    simp

theorem prints_declarations {depth : Nat} (inside : 0 < depth)
    (each : ∀ text ∈ texts, IsWhole text ∧ ink text ≠ []) :
    Prints depth (texts.flatMap (· ++ [';'])) (texts.map (declaring depth)) := by
  rw [← List.flatMap_pure_eq_map]
  apply Prints.flatMap
  intro text member
  obtain ⟨whole, shown⟩ := each text member
  exact prints_declaration inside whole shown

/-- The last declaration of a block needs no semicolon. -/
theorem foldl_declarations {state : State} (rests : state.Rests) (inside : 0 < state.depth)
    (each : ∀ text ∈ texts, IsWhole text ∧ ink text ≠ []) :
    ([';'].intercalate texts ++ ['\x7d']).foldl State.read state =
      (texts.flatMap (· ++ [';']) ++ ['\x7d']).foldl State.read state := by
  rcases List.eq_nil_or_concat' texts with rfl | ⟨front, last, rfl⟩
  · rfl
  · obtain ⟨earlier, own⟩ := List.forall_mem_append.mp each
    have whole := (List.forall_mem_singleton.mp own).1
    obtain ⟨gap, -, read⟩ := prints_declarations inside earlier state rests rfl
    rw [intercalate_concat, List.flatMap_append]
    simp only [List.foldl_append, read, List.flatMap_cons, List.flatMap_nil, List.append_nil,
      List.foldl_cons, List.foldl_nil]
    rw [State.foldl_holding rests.outside whole, State.read_semicolon_closing rests.outside inside]

/-- A rule with its declarations, the last one without a semicolon. -/
theorem foldl_rule {state : State} {header : List Char} (rests : state.Rests)
    (whole : IsWhole header) (shown : ink header ≠ [])
    (each : ∀ text ∈ texts, IsWhole text ∧ ink text ≠ []) :
    (header ++ '\x7b' :: ([';'].intercalate texts ++ ['\x7d'])).foldl State.read state =
      (state.holding state.depth (addLines state.written (opening state.depth header ::
        (texts.map (declaring (state.depth + 1)) ++ [ending state.depth]))) []).endItem := by
  have block := foldl_block rests whole shown (prints_declarations (Nat.succ_pos _) each)
  have opened : (state.holding (state.depth + 1)
      (addLines state.written [opening state.depth header]) []).Rests :=
    rests.holding (List.forall_mem_nil _)
  rw [List.foldl_append, List.foldl_cons, read_opening rests whole shown] at block ⊢
  rw [foldl_declarations opened (Nat.succ_pos _) each, block]

end Rule

end Layout

end AtomicCss
