import AtomicCss.Proofs.Stylesheet.Tree
import AtomicCss.Proofs.Text.Splitting

/-!
The lines of a printed stylesheet.

A text that is read to rest does not change how the text behind it is read. So the printed lines of
such texts, one behind the other, are those of each alone. A rule of one-word header and
declarations is printed as one line for each exactly if all of them are whole; otherwise the first
that is not runs on into what follows.
-/

namespace AtomicCss.Layout

open Text.Chars

/-- The lines of a text that show something, without blanks at their ends. -/
def rows (text : List Char) : List (List Char) :=
  ((split (· == '\n') text).map trimEnd).filter fun row => !row.isEmpty

section Rows

variable {text front back : List Char}

@[simp] theorem rows_nil : rows [] = [] := rfl

theorem rows_break (front back : List Char) :
    rows (front ++ '\n' :: back) = rows front ++ rows back := by
  rw [rows, split_append_cons (by decide), List.map_append, List.filter_append, rows, rows]

theorem rows_of_unbroken (unbroken : '\n' ∉ text) :
    rows text = if trimEnd text = [] then [] else [trimEnd text] := by
  have none : ∀ c ∈ text, (c == '\n') = false := by
    intro c member
    simpa using ne_of_mem_of_not_mem member unbroken
  rw [rows, split_of_none none]
  by_cases empty : trimEnd text = [] <;> simp [empty]

theorem trimEnd_of_blank (blank : ∀ c ∈ text, Text.isBlank c = true) : trimEnd text = [] := by
  rw [← List.nil_append text, trimEnd_append blank]
  rfl

/-- Induction over the lines of a text. -/
theorem induction_on_lines {motive : List Char → Prop} (last : ∀ line, '\n' ∉ line → motive line)
    (more : ∀ line rest, '\n' ∉ line → motive rest → motive (line ++ '\n' :: rest))
    (text : List Char) :
    motive text := by
  by_cases broken : '\n' ∈ text
  · obtain ⟨line, rest, split, unbroken⟩ := List.eq_append_cons_of_mem broken
    have shorter : rest.length < text.length := by
      rw [split, List.length_append, List.length_cons]
      omega
    rw [split]
    exact more line rest unbroken (induction_on_lines last more rest)
  · exact last text broken
termination_by text.length

theorem rows_of_blank (blank : ∀ c ∈ text, Text.isBlank c = true) : rows text = [] := by
  induction text using induction_on_lines with
  | last line unbroken => rw [rows_of_unbroken unbroken, if_pos (trimEnd_of_blank blank)]
  | more line rest unbroken ih =>
    obtain ⟨own, others⟩ := List.forall_mem_append.mp blank
    rw [rows_break, rows_of_unbroken unbroken, if_pos (trimEnd_of_blank own), List.nil_append]
    exact ih (List.forall_mem_cons.mp others).2

/-- Blanks at the end show in no line. -/
theorem rows_append_blank (blank : ∀ c ∈ back, Text.isBlank c = true) (front : List Char) :
    rows (front ++ back) = rows front := by
  induction front using induction_on_lines with
  | last line unbroken =>
    rw [rows_of_unbroken unbroken]
    cases back using induction_on_lines with
    | last gap gap_unbroken =>
      rw [rows_of_unbroken (by simp [unbroken, gap_unbroken]), trimEnd_append blank]
    | more gap rest gap_unbroken _ =>
      obtain ⟨own, others⟩ := List.forall_mem_append.mp blank
      rw [← List.append_assoc, rows_break, rows_of_blank (List.forall_mem_cons.mp others).2,
        List.append_nil, rows_of_unbroken (by simp [unbroken, gap_unbroken]), trimEnd_append own]
  | more line rest _ ih => rw [List.append_assoc, List.cons_append, rows_break, ih, rows_break]

theorem rows_trimEnd (text : List Char) : rows (trimEnd text) = rows text := by
  obtain ⟨blanks, split, blank⟩ := exists_blank_end text
  conv_rhs => rw [split, rows_append_blank blank]

theorem rows_concat {front : List Char} {c : Char} (unbroken : '\n' ∉ front)
    (shown : Text.isBlank c = false) : rows (front ++ [c]) = [front ++ [c]] := by
  have other : '\n' ≠ c := by
    rintro rfl
    revert shown
    decide
  rw [rows_of_unbroken (by simp [unbroken, other]), trimEnd_concat _ shown, if_neg (by simp)]

theorem rows_addLine (written : List Char) (depth : Nat) (line : List Char) :
    rows (addLine written depth line) = rows written ++
      rows (List.replicate (2 * depth) ' ' ++ line) := by
  rw [addLine]
  split
  · next empty => simp [List.isEmpty_iff.mp empty]
  · rw [List.append_assoc, List.append_assoc, List.singleton_append, rows_break]

/-- The final line break apart, what is printed is what is written. -/
theorem rows_chars (css : List Char) :
    rows (chars css) = rows (css.foldl State.read .start).flushDeclaration.written := by
  rw [← rows_trimEnd (css.foldl State.read .start).flushDeclaration.written]
  simp only [chars]
  split
  · next empty => rw [List.isEmpty_iff.mp empty]
  · rw [rows_break _ [], rows_nil, List.append_nil]

/-- The lines of a text that is laid out. -/
def printedRows (css : String) : List (List Char) := rows (pretty css).toList

theorem printedRows_eq (css : String) : printedRows css = rows (chars css.toList) := by
  rw [printedRows, pretty, String.toList_ofList]

end Rows

namespace State

/-- The state reads on as another one, behind lines that are written already. -/
structure Behind (front : List (List Char)) (state other : State) : Prop where
  scan : state.scan = other.scan
  depth : state.depth = other.depth
  pending : ∃ gap, (∀ c ∈ gap, Text.isBlank c = true) ∧ state.pending = other.pending ++ gap
  written : rows state.written = front ++ rows other.written

namespace Behind

variable {front : List (List Char)} {state other : State}

theorem token (behind : Behind front state other) : state.token = other.token := by
  obtain ⟨gap, blank, pending⟩ := behind.pending
  rw [State.token, pending, List.reverse_append,
    trim_blank_append fun c member => blank c (List.mem_reverse.mp member), ← State.token]

theorem keep (behind : Behind front state other) (c : Char) (next : Scan) :
    Behind front ((state.keep c).withScan next) ((other.keep c).withScan next) := by
  obtain ⟨gap, blank, pending⟩ := behind.pending
  exact ⟨rfl, behind.depth, ⟨gap, blank, congrArg (c :: ·) pending⟩, behind.written⟩

/-- A line is added at the end, and nothing is kept. -/
theorem line (behind : Behind front state other) (depth before : Nat) (text : List Char)
    (empty : Bool) :
    Behind front
      (state.holding depth (if empty then state.written else addLine state.written before text) [])
      (other.holding depth
        (if empty then other.written else addLine other.written before text) []) := by
  refine ⟨behind.scan, rfl, ⟨[], List.forall_mem_nil _, rfl⟩, ?_⟩
  cases empty with
  | true => exact behind.written
  | false => simp [rows_addLine, behind.written]

theorem openBlock (behind : Behind front state other) :
    Behind front state.openBlock other.openBlock := by
  have opened :=
    behind.line (other.depth + 1) other.depth (other.token ++ [' ', '\x7b']) other.token.isEmpty
  unfold State.openBlock
  rw [behind.token, behind.depth]
  exact opened

theorem flushDeclaration (behind : Behind front state other) :
    Behind front state.flushDeclaration other.flushDeclaration := by
  have flushed :=
    behind.line other.depth other.depth (declaration other.token ++ [';']) other.token.isEmpty
  unfold State.flushDeclaration
  rw [behind.token, behind.depth]
  have same : state = { state with depth := other.depth } := by rw [← behind.depth]
  rw [same]
  exact flushed

theorem endItem (behind : Behind front state other) : Behind front state.endItem other.endItem := by
  unfold State.endItem
  rw [behind.depth]
  split
  · refine ⟨behind.scan, rfl, behind.pending, ?_⟩
    simp only [rows_break _ [], rows_nil, List.append_nil, behind.written]
  · exact behind

theorem closeBlock (behind : Behind front state other) :
    Behind front state.closeBlock other.closeBlock := by
  have flushed := behind.flushDeclaration
  have closed := flushed.line (other.flushDeclaration.depth - 1) (other.flushDeclaration.depth - 1)
    ['\x7d'] false
  rw [State.closeBlock, flushed.depth]
  exact closed.endItem

theorem read (behind : Behind front state other) (c : Char) :
    Behind front (state.read c) (other.read c) := by
  cases step : other.scan.step c with
  | some next =>
    rw [read_of_step step, read_of_step (behind.scan ▸ step)]
    exact behind.keep c next
  | none =>
    rw [read_of_step_eq_none step, read_of_step_eq_none (behind.scan ▸ step)]
    split
    · exact behind.openBlock
    · split
      · exact behind.flushDeclaration.endItem
      · exact behind.closeBlock

theorem foldl (behind : Behind front state other) (css : List Char) :
    Behind front (css.foldl State.read state) (css.foldl State.read other) := by
  induction css generalizing state other with
  | nil => exact behind
  | cons c css ih => exact ih (behind.read c)

end Behind

/-- Lines that are written stay. -/
theorem exists_rows_foldl (state : State) (css : List Char) :
    ∃ more, rows (css.foldl State.read state).flushDeclaration.written =
      rows state.written ++ more := by
  have behind : Behind (rows state.written) state { state with written := [] } :=
    ⟨rfl, rfl, ⟨[], List.forall_mem_nil _, (List.append_nil _).symm⟩, (List.append_nil _).symm⟩
  exact ⟨_, (behind.foldl css).flushDeclaration.written⟩

end State

/-- A text that is read to rest at the root. -/
structure StandsAlone (css : List Char) : Prop where
  rests : (css.foldl State.read .start).Rests
  root : (css.foldl State.read .start).depth = 0

namespace StandsAlone

variable {front back : List Char}

theorem behind (alone : StandsAlone front) :
    State.Behind (rows (chars front)) (front.foldl State.read .start) .start := by
  refine ⟨alone.rests.outside, alone.root, ⟨_, alone.rests.blank, rfl⟩, ?_⟩
  rw [rows_chars, alone.rests.flushDeclaration]
  exact (List.append_nil _).symm

/-- Behind a text that stands alone another one is printed as by itself. -/
theorem rows_append (alone : StandsAlone front) (back : List Char) :
    rows (chars (front ++ back)) = rows (chars front) ++ rows (chars back) := by
  rw [rows_chars (front ++ back), List.foldl_append,
    (alone.behind.foldl back).flushDeclaration.written, ← rows_chars]

/-- Texts that stand alone are printed each as by itself. -/
theorem printedRows_join {texts : List String} (each : ∀ text ∈ texts, StandsAlone text.toList)
    (rest : List String) : printedRows (String.join (texts ++ rest)) =
      texts.flatMap printedRows ++ printedRows (String.join rest) := by
  induction texts with
  | nil => rw [List.nil_append, List.flatMap_nil, List.nil_append]
  | cons text texts ih =>
    obtain ⟨own, others⟩ := List.forall_mem_cons.mp each
    have joined : (String.join (text :: texts ++ rest)).toList =
        text.toList ++ (String.join (texts ++ rest)).toList := by
      simp [String.toList_join]
    rw [printedRows_eq, joined, own.rows_append, ← printedRows_eq, ← printedRows_eq, ih others,
      List.flatMap_cons, List.append_assoc]

end StandsAlone

section FirstRow

variable {text css : List Char}

/-- One line that begins with a character that shows and is no mark. Selectors and declarations are
such texts. -/
structure IsSteady (text : List Char) : Prop where
  unbroken : '\n' ∉ text
  begins : ∃ c ∈ text.head?, Text.isBlank c = false ∧ c ∉ Scan.marks

theorem IsSteady.ink_ne_nil (steady : IsSteady text) : ink text ≠ [] := by
  obtain ⟨c, first, shown, -⟩ := steady.begins
  exact List.ne_nil_of_mem (mem_ink.mpr ⟨List.mem_of_head? first, shown⟩)

theorem IsSteady.append (steady : IsSteady text) (unbroken : '\n' ∉ css) :
    IsSteady (text ++ css) := by
  obtain ⟨c, first, plain⟩ := steady.begins
  refine ⟨fun member => (List.mem_append.mp member).elim steady.unbroken unbroken, c, ?_, plain⟩
  rw [List.head?_append, Option.mem_def.mp first]
  rfl

theorem mem_of_mem_trim {cs : List Char} {c : Char} (member : c ∈ trim cs) : c ∈ cs := by
  have inside := List.mem_reverse.mp member
  have shown := (List.dropWhile_sublist _).mem inside
  exact (List.dropWhile_sublist _).mem (List.mem_reverse.mp shown)

theorem eq_of_splitOnce? {separator : Char} {name value : List Char}
    (found : splitOnce? separator text = some (name, value)) :
    text = name ++ separator :: value := by
  induction text generalizing name with
  | nil => cases found
  | cons c rest ih =>
    unfold splitOnce? at found
    split at found
    · next same =>
      cases found
      rw [same, List.nil_append]
    · obtain ⟨⟨front, back⟩, split, same⟩ := Option.map_eq_some_iff.mp found
      cases same
      rw [ih split, List.cons_append]

/-- Only blanks are changed by the form that a declaration is written in. -/
theorem declaration_keeps (text : List Char) :
    ink (declaration text) = ink text ∧ ('\n' ∉ text → '\n' ∉ declaration text) := by
  have kept : ink (trim text) = ink text ∧ ('\n' ∉ text → '\n' ∉ trim text) :=
    ⟨ink_trim text, mt mem_of_mem_trim⟩
  unfold declaration
  split
  · exact kept
  · split
    · exact kept
    · next name value found =>
      rw [eq_of_splitOnce? found]
      constructor
      · have spaced :
            ink (trim name ++ ([':', ' '] ++ trim value)) = ink (name ++ ([':'] ++ value)) := by
          simp only [ink_append, ink_trim]
          rfl
        exact spaced
      · simp only [List.mem_append, List.mem_cons, not_or]
        exact fun unbroken =>
          ⟨mt mem_of_mem_trim unbroken.1, unbroken.2.1, by decide, mt mem_of_mem_trim unbroken.2.2⟩

theorem ink_indent (depth : Nat) (line : List Char) :
    ink (List.replicate (2 * depth) ' ' ++ line) = ink line := by
  have gone : ink (List.replicate (2 * depth) ' ') = [] :=
    List.filter_eq_nil_iff.mpr fun c member => by simp [blank_indent _ c member]
  rw [ink_append, gone, List.nil_append]

theorem rows_declaring (unbroken : '\n' ∉ text) (depth : Nat) :
    ∃ row, rows (List.replicate (2 * depth) ' ' ++ (declaration (trim text) ++ [';'])) = [row] ∧
      ink row = ink text ++ [';'] := by
  have semicolon : Text.isBlank ';' = false := by decide
  obtain ⟨shown, kept⟩ := declaration_keeps (trim text)
  refine ⟨List.replicate (2 * depth) ' ' ++ declaration (trim text) ++ [';'], ?_, ?_⟩
  · rw [← List.append_assoc, rows_concat (by simp [kept (mt mem_of_mem_trim unbroken)]) semicolon]
  · rw [List.append_assoc, ink_indent, ink_append, shown, ink_trim]
    rfl

theorem rows_opening (unbroken : '\n' ∉ text) (depth : Nat) :
    ∃ row, rows (List.replicate (2 * depth) ' ' ++ (trim text ++ [' ', '\x7b'])) = [row] ∧
      ink row = ink text ++ ['\x7b'] := by
  have brace : Text.isBlank '\x7b' = false := by decide
  refine ⟨List.replicate (2 * depth) ' ' ++ (trim text ++ [' ']) ++ ['\x7b'], ?_, ?_⟩
  · rw [← rows_concat (by simp [mt mem_of_mem_trim unbroken]) brace]
    simp
  · rw [List.append_assoc, ink_indent, List.append_assoc, ink_append, ink_trim]
    rfl

theorem exists_first_end (scan : Scan) (css : List Char) :
    (∃ next, scan.along css = some next) ∨
      ∃ front c back next, css = front ++ c :: back ∧ scan.along front = some next ∧
        next.step c = none := by
  induction css generalizing scan with
  | nil => exact .inl ⟨scan, rfl⟩
  | cons c rest ih =>
    cases step : scan.step c with
    | none => exact .inr ⟨[], c, rest, scan, rfl, rfl, step⟩
    | some middle =>
      rcases ih middle with ⟨next, kept⟩ | ⟨front, d, back, next, rfl, kept, ends⟩
      · exact .inl ⟨next, by rw [Scan.along_cons, step, Option.bind_some, kept]⟩
      · exact .inr ⟨c :: front, d, back, next, rfl,
          by rw [Scan.along_cons, step, Option.bind_some, kept], ends⟩

variable {state : State}

/-- The end of a line writes what was kept. -/
theorem exists_row_of_read {c : Char} (ends : state.scan.step c = none) (unbroken : '\n' ∉ text)
    (shown : ink text ≠ []) (pending : state.pending = text.reverse) :
    ∃ row more last, rows (state.read c).written = rows state.written ++ row :: more ∧
      ink row = ink text ++ [last] := by
  have token : state.token = trim text := by rw [State.token, pending, List.reverse_reverse]
  obtain ⟨header, header_rows, header_ink⟩ := rows_opening unbroken state.depth
  obtain ⟨row, declared, ink_row⟩ := rows_declaring unbroken state.depth
  have flushed : rows state.flushDeclaration.written = rows state.written ++ [row] := by
    simp only [State.flushDeclaration, token, List.isEmpty_iff, if_neg (trim_ne_nil shown),
      rows_addLine, declared]
  have ended (state : State) : rows state.endItem.written = rows state.written := by
    unfold State.endItem
    split
    · rw [rows_break _ [], rows_nil, List.append_nil]
    · rfl
  rw [State.read_of_step_eq_none ends]
  split
  · refine ⟨header, [], '\x7b', ?_, header_ink⟩
    simp only [State.openBlock, token, List.isEmpty_iff, if_neg (trim_ne_nil shown), rows_addLine,
      header_rows]
  · split
    · exact ⟨row, [], ';', by rw [ended, flushed], ink_row⟩
    · refine ⟨row,
        rows (List.replicate (2 * (state.flushDeclaration.depth - 1)) ' ' ++ ['\x7d']), ';', ?_,
        ink_row⟩
      rw [State.closeBlock, ended, rows_addLine, flushed, List.append_assoc, List.singleton_append]

/-- The first line that is written shows the text up to the first end of a line, which is whole. -/
theorem exists_first_row (outside : state.scan = .outside) (empty : state.pending = [])
    (steady : IsSteady css) :
    ∃ front back row more last, css = front ++ back ∧ (back ≠ [] → IsWhole front) ∧
      rows (css.foldl State.read state).flushDeclaration.written = rows state.written ++
        row :: more ∧
      ink row = ink front ++ [last] := by
  rcases exists_first_end .outside css with ⟨next, kept⟩ | ⟨front, c, back, next, rfl, kept, ends⟩
  · obtain ⟨row, declared, ink_row⟩ := rows_declaring steady.unbroken state.depth
    refine ⟨css, [], row, [], ';', (List.append_nil _).symm, absurd rfl, ?_, ink_row⟩
    have token : trim (css.reverse ++ state.pending).reverse = trim css := by
      rw [empty, List.append_nil, List.reverse_reverse]
    rw [State.foldl_of_along (outside ▸ kept)]
    simp only [State.flushDeclaration, State.token, State.withScan, token, List.isEmpty_iff,
      if_neg (trim_ne_nil steady.ink_ne_nil), rows_addLine, declared]
  · obtain ⟨unquoted, unenclosed, mark⟩ := State.step_eq_none_iff.mp ends
    have whole : IsWhole front := by
      have unshielded := (Scan.sound_outside.along kept).unshielded unquoted
      rw [IsWhole, kept, Scan.outside, ← unquoted, ← unenclosed, ← unshielded]
    obtain ⟨first, begins, first_shown, unmarked⟩ := steady.begins
    obtain ⟨rest, rfl⟩ : ∃ rest, front = first :: rest := by
      cases front with
      | nil =>
        obtain rfl := Option.some.inj begins
        exact absurd mark unmarked
      | cons d rest =>
        obtain rfl := Option.some.inj begins
        exact ⟨rest, rfl⟩
    have shown : ink (first :: rest) ≠ [] :=
      List.ne_nil_of_mem (mem_ink.mpr ⟨List.mem_cons_self, first_shown⟩)
    have unbroken : '\n' ∉ first :: rest :=
      fun member => steady.unbroken (List.mem_append_left _ member)
    obtain rfl : next = .outside := Option.some.inj (kept.symm.trans whole)
    have read := State.foldl_of_isWhole outside whole
    rw [empty, List.append_nil] at read
    have stops :
        (state.holding state.depth state.written (first :: rest).reverse).scan.step c = none :=
      outside.symm ▸ ends
    obtain ⟨row, more, last, written, ink_row⟩ := exists_row_of_read stops unbroken shown rfl
    rw [List.foldl_append, List.foldl_cons, read]
    obtain ⟨later, kept_rows⟩ := State.exists_rows_foldl
      ((state.holding state.depth state.written (first :: rest).reverse).read c) back
    refine ⟨first :: rest, c :: back, row, more ++ later, last, rfl, fun _ => whole, ?_, ink_row⟩
    rw [kept_rows, written, State.written_holding, List.append_assoc, List.cons_append]

/-- A text is whole if the first line that is written shows it up to the character behind it. -/
theorem isWhole_of_first_row {c last : Char} {tail row : List Char} {more : List (List Char)}
    (outside : state.scan = .outside) (empty : state.pending = [])
    (steady : IsSteady (text ++ c :: tail)) (shown : Text.isBlank c = false)
    (written : rows ((text ++ c :: tail).foldl State.read state).flushDeclaration.written =
      rows state.written ++ row :: more)
    (ink_row : ink row = ink text ++ [last]) : IsWhole text := by
  obtain ⟨front, back, first, others, mark, split, whole, read, ink_first⟩ :=
    exists_first_row outside empty steady
  obtain ⟨rfl, -⟩ := List.cons.inj (List.append_cancel_left (read.symm.trans written))
  have same : ink front = ink text := (List.append_inj' (ink_first.symm.trans ink_row) rfl).1
  rcases List.append_eq_append_iff.mp split with ⟨beyond, rfl, rest⟩ | ⟨gap, rfl, rest⟩
  · -- the line cannot reach beyond the text, since the next character shows
    cases beyond with
    | nil =>
      rw [List.append_nil] at whole
      obtain rfl : c :: tail = back := rest
      exact whole (List.cons_ne_nil c tail)
    | cons d beyond =>
      obtain ⟨rfl, -⟩ := List.cons.inj rest
      rw [ink_append, List.append_right_eq_self] at same
      exact absurd same (List.ne_nil_of_mem (mem_ink.mpr ⟨List.mem_cons_self, shown⟩))
  · rw [ink_append, List.self_eq_append_right] at same
    have blank : ∀ d ∈ gap, Text.isBlank d = true := by simpa [ink] using same
    exact (whole (by simp [rest])).append (isWhole_of_blank blank)

section Rule

variable {header : List Char} {texts : List (List Char)}

def Line.row (line : Line) : List Char := List.replicate (2 * line.depth) ' ' ++ line.text

theorem rows_flatMap_spelled (lines : List Line) :
    rows (lines.flatMap Line.spelled) = lines.flatMap fun line => rows line.row := by
  induction lines with
  | nil => rfl
  | cons line lines ih =>
    rw [List.flatMap_cons, Line.spelled, List.append_assoc, List.singleton_append, rows_break, ih]
    rfl

theorem rows_addLines (written : List Char) (lines : List Line) :
    rows (addLines written lines) = rows written ++ lines.flatMap fun line => rows line.row := by
  induction lines generalizing written with
  | nil => exact (List.append_nil _).symm
  | cons line lines ih =>
    rw [addLines_cons, ih, rows_addLine, List.flatMap_cons, Line.row, List.append_assoc]

/-- A rule of a header and declarations, without blanks between them. -/
def ruleText (header : List Char) (texts : List (List Char)) : List Char :=
  header ++ '\x7b' :: ([';'].intercalate texts ++ ['\x7d'])

def ruleLines (header : List Char) (texts : List (List Char)) : List Line :=
  opening 0 header :: (texts.map (declaring 1) ++ [ending 0])

theorem unbroken_declarations (each : ∀ text ∈ texts, IsSteady text) :
    '\n' ∉ [';'].intercalate texts ++ ['\x7d'] := by
  intro member
  rcases texts with - | ⟨text, rest⟩
  · revert member
    decide
  · obtain ⟨own, others⟩ := List.forall_mem_cons.mp each
    rw [intercalate_cons] at member
    simp only [List.mem_append, List.mem_flatMap, List.mem_singleton, Char.reduceEq, or_false,
      false_or] at member
    rcases member with inside | ⟨other, known, inside⟩
    · exact own.unbroken inside
    · exact (others other known).unbroken inside

/-- If each declaration has its own line, each is whole. -/
theorem isWhole_of_rows (outside : state.scan = .outside) (empty : state.pending = [])
    (inside : 0 < state.depth) (each : ∀ text ∈ texts, IsSteady text) {tail : List (List Char)}
    (written : rows
      (([';'].intercalate texts ++ ['\x7d']).foldl State.read state).flushDeclaration.written =
      rows state.written ++
        ((texts.flatMap fun text => rows (declaring state.depth text).row) ++ tail)) :
    ∀ text ∈ texts, IsWhole text := by
  induction texts generalizing state with
  | nil => exact List.forall_mem_nil _
  | cons text rest ih =>
    obtain ⟨own, others⟩ := List.forall_mem_cons.mp each
    obtain ⟨row, own_row, ink_row⟩ := rows_declaring own.unbroken state.depth
    have declared : rows (declaring state.depth text).row = [row] := own_row
    rw [List.flatMap_cons, declared, List.append_assoc, List.singleton_append] at written
    rcases rest with - | ⟨next, rest⟩
    · rw [List.intercalate_singleton] at written
      have steady : IsSteady (text ++ ['\x7d']) := own.append (by decide)
      have whole := isWhole_of_first_row outside empty steady (by decide) written ink_row
      exact List.forall_mem_singleton.mpr whole
    · have split : [';'].intercalate (text :: next :: rest) ++ ['\x7d'] =
          text ++ ';' :: ([';'].intercalate (next :: rest) ++ ['\x7d']) := by
        rw [intercalate_cons, intercalate_cons, List.flatMap_cons]
        simp
      rw [split] at written
      have unbroken : '\n' ∉ ';' :: ([';'].intercalate (next :: rest) ++ ['\x7d']) :=
        List.not_mem_cons_of_ne_of_not_mem (by decide) (unbroken_declarations others)
      have whole :=
        isWhole_of_first_row outside empty (own.append unbroken) (by decide) written ink_row
      refine List.forall_mem_cons.mpr ⟨whole, ?_⟩
      have rests : state.Rests := ⟨outside, empty ▸ List.forall_mem_nil _⟩
      have read := foldl_statement rests whole own.ink_ne_nil
      rw [State.endItem_holding, if_neg (Nat.ne_of_gt inside)] at read
      have next_outside : (state.holding state.depth
          (addLines state.written [declaring state.depth text]) []).scan = .outside := outside
      refine ih next_outside rfl inside others ?_
      rw [← read, ← List.foldl_append, List.append_assoc, List.singleton_append, written, read,
        State.written_holding, rows_addLines, List.flatMap_singleton, declared, List.append_assoc]
      rfl

variable (steady : IsSteady header) (each : ∀ text ∈ texts, IsSteady text)

include steady each

theorem foldl_ruleText (whole : IsWhole header) (wholes : ∀ text ∈ texts, IsWhole text) :
    (ruleText header texts).foldl State.read .start =
      State.start.holding 0 ((ruleLines header texts).flatMap Line.spelled) [] := by
  have rests : State.start.Rests := ⟨rfl, List.forall_mem_nil _⟩
  have root : State.start.depth = 0 := rfl
  have read := foldl_rule rests whole steady.ink_ne_nil fun text member =>
    ⟨wholes text member, (each text member).ink_ne_nil⟩
  have some_char : trim header ++ [' ', '\x7b'] ≠ [] := by simp
  rw [ruleText, read, State.endItem_holding, if_pos root]
  exact congrArg (State.start.holding 0 · []) (addLines_nil_break some_char _)

theorem chars_ruleText (whole : IsWhole header) (wholes : ∀ text ∈ texts, IsWhole text) :
    chars (ruleText header texts) = (ruleLines header texts).flatMap Line.spelled := by
  have written : ((ruleText header texts).foldl State.read .start).flushDeclaration.written =
      (ruleLines header texts).flatMap Line.spelled := by
    rw [foldl_ruleText steady each whole wholes,
      State.flushDeclaration_of_blank (List.forall_mem_nil _)]
    rfl
  have split : (ruleLines header texts).flatMap Line.spelled =
      (opening 0 header :: texts.map (declaring 1)).flatMap Line.spelled ++ ['\x7d'] ++ ['\n'] :=
    flatMap_spelled_ending (_ :: _)
  rw [split]
  exact chars_of_written (by decide) (written.trans split)

theorem standsAlone_ruleText (whole : IsWhole header) (wholes : ∀ text ∈ texts, IsWhole text) :
    StandsAlone (ruleText header texts) := by
  have read := foldl_ruleText steady each whole wholes
  exact ⟨read ▸ ⟨rfl, List.forall_mem_nil _⟩, read ▸ rfl⟩

/-- A rule is printed as one line for its header and one for each declaration just if all are
whole. -/
theorem chars_ruleText_iff :
    chars (ruleText header texts) = (ruleLines header texts).flatMap Line.spelled ↔
      IsWhole header ∧ ∀ text ∈ texts, IsWhole text := by
  constructor
  · intro printed
    obtain ⟨row, own_row, ink_row⟩ := rows_opening steady.unbroken 0
    have opened : rows (opening 0 header).row = [row] := own_row
    have written := congrArg rows printed
    rw [rows_chars, rows_flatMap_spelled, ruleLines, List.flatMap_cons, opened] at written
    have unbroken : '\n' ∉ '\x7b' :: ([';'].intercalate texts ++ ['\x7d']) :=
      List.not_mem_cons_of_ne_of_not_mem (by decide) (unbroken_declarations each)
    have outside : State.start.scan = .outside := rfl
    have whole : IsWhole header :=
      isWhole_of_first_row outside rfl (steady.append unbroken) (by decide) written ink_row
    refine ⟨whole, ?_⟩
    have rests : State.start.Rests := ⟨outside, List.forall_mem_nil _⟩
    have opened_outside :
        (State.start.holding 1 (addLines [] [opening 0 header]) []).scan = .outside := outside
    have held : rows (addLines [] [opening 0 header]) = [row] := by
      rw [rows_addLines, List.flatMap_singleton, opened]
      rfl
    rw [ruleText, List.foldl_append, List.foldl_cons, read_opening rests whole steady.ink_ne_nil,
      List.flatMap_append, List.flatMap_map, ← held] at written
    exact isWhole_of_rows opened_outside rfl Nat.one_pos each written
  · rintro ⟨whole, wholes⟩
    exact chars_ruleText steady each whole wholes

end Rule

end FirstRow

end AtomicCss.Layout
