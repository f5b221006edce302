import AtomicCss.Proofs.Stylesheet.Reading

/-!
Stylesheets as trees.

A stylesheet is made of statements and of blocks, which hold declarations or other blocks. Its
minified text has no blanks between these parts, and its layout a line for each header, declaration
and closing brace. The minified text is printed as the layout, and so is the layout itself.
-/

namespace AtomicCss

namespace Text.Chars

/-- Characters that begin and end with one that is not blank. -/
structure Edged (cs : List Char) : Prop where
  first : ∃ c ∈ cs.head?, isBlank c = false
  last : ∃ c ∈ cs.getLast?, isBlank c = false

theorem trimEnd_concat (front : List Char) {c : Char} (shown : isBlank c = false) :
    trimEnd (front ++ [c]) = front ++ [c] := by
  rw [trimEnd_append_of_shown _ ⟨c, List.mem_singleton_self c, shown⟩]
  simp [trimEnd, shown]

theorem Edged.trim {cs : List Char} (edged : Edged cs) : trim cs = cs := by
  obtain ⟨⟨c, first, shown⟩, d, last, last_shown⟩ := edged
  have kept : cs.dropWhile isBlank = cs := by
    cases cs with
    | nil => rfl
    | cons head rest =>
      obtain rfl : head = c := by simpa using first
      exact List.dropWhile_cons_of_neg (by simp [shown])
  obtain ⟨front, rfl⟩ := List.getLast?_eq_some_iff.mp last
  rw [Chars.trim, kept, trimEnd_concat front last_shown]

theorem edged_of_trim {cs : List Char} (trimmed : trim cs = cs) (some_char : cs ≠ []) :
    Edged cs := by
  have shown_first {cs : List Char} {c : Char} (first : (cs.dropWhile isBlank).head? = some c) :
      isBlank c = false := by
    have kept := List.head?_dropWhile_not isBlank cs
    rw [first] at kept
    simpa using kept
  constructor
  · obtain ⟨blanks, split, -⟩ := exists_blank_end (cs.dropWhile isBlank)
    rw [← trim, trimmed] at split
    obtain ⟨c, rest, rfl⟩ := List.exists_cons_of_ne_nil some_char
    exact ⟨c, rfl, shown_first (congrArg List.head? split)⟩
  · obtain ⟨front, c, rfl⟩ := List.eq_nil_or_concat' cs |>.resolve_left some_char
    refine ⟨c, by simp, ?_⟩
    have reversed := congrArg List.reverse trimmed
    rw [trim, trimEnd, List.reverse_reverse, List.reverse_append] at reversed
    exact shown_first (congrArg List.head? reversed)

theorem Edged.ink_ne_nil {cs : List Char} (edged : Edged cs) : ink cs ≠ [] := by
  obtain ⟨c, first, shown⟩ := edged.first
  exact List.ne_nil_of_mem (mem_ink.mpr ⟨List.mem_of_head? first, shown⟩)

theorem Edged.append {front back : List Char} (first : Edged front) (last : Edged back)
    (between : List Char) : Edged (front ++ between ++ back) := by
  obtain ⟨c, head, shown⟩ := first.first
  obtain ⟨d, tail, last_shown⟩ := last.last
  refine ⟨⟨c, ?_, shown⟩, d, ?_, last_shown⟩
  · simp [List.head?_append, Option.mem_def.mp head]
  · simp [List.getLast?_append, Option.mem_def.mp tail]

end Text.Chars

namespace Layout

open Text.Chars

/-- The text of a string up to its closing quote: a backslash takes the character behind it
along. -/
inductive Quoted (quote : Char) : List Char → Prop where
  | nil : Quoted quote []
  | char {c cs} : c ≠ quote → c ≠ '\\' → Quoted quote cs → Quoted quote (c :: cs)
  | shielded {c cs} : Quoted quote cs → Quoted quote ('\\' :: c :: cs)

/-- A text whose quotes are closed and whose parentheses are balanced, without a backslash, a brace
or a semicolon outside of them. A text that is enclosed stands in parentheses itself. -/
inductive Balanced : (enclosed : Bool) → List Char → Prop where
  | nil {enclosed} : Balanced enclosed []
  | char {enclosed c cs} : c ∉ ['"', '\'', '(', ')'] → (enclosed = false → c ∉ '\\' :: Scan.marks) →
      Balanced enclosed cs → Balanced enclosed (c :: cs)
  | quoted {enclosed quote text cs} : quote ∈ ['"', '\''] → Quoted quote text →
      Balanced enclosed cs →
      Balanced enclosed (quote :: (text ++ quote :: cs))
  | parentheses {enclosed text cs} : Balanced true text → Balanced enclosed cs →
      Balanced enclosed ('(' :: (text ++ ')' :: cs))

theorem Quoted.along {quote : Char} {text : List Char} (quoted : Quoted quote text)
    (parentheses : Nat) :
    Scan.along ⟨some quote, false, parentheses⟩ text = some ⟨some quote, false, parentheses⟩ := by
  induction quoted with
  | nil => rfl
  | char other unshielded _ ih =>
    rw [Scan.along_cons]
    simpa [Scan.step, other, unshielded] using ih
  | shielded _ ih =>
    rw [Scan.along_cons]
    simpa [Scan.step, Scan.along_cons] using ih

theorem Balanced.along {enclosed : Bool} {text : List Char} (balanced : Balanced enclosed text)
    {parentheses : Nat} (within : enclosed = true → 0 < parentheses) :
    Scan.along ⟨none, false, parentheses⟩ text = some ⟨none, false, parentheses⟩ := by
  induction balanced generalizing parentheses with
  | nil => rfl
  | @char enclosed c cs plain unmarked _ ih =>
    have kept : ¬ (parentheses = 0 ∧ c ∈ Scan.marks) := by
      rintro ⟨rfl, mark⟩
      cases enclosed with
      | true => exact Nat.lt_irrefl 0 (within rfl)
      | false => exact unmarked rfl (List.mem_cons_of_mem _ mark)
    have own : Scan.step ⟨none, false, parentheses⟩ c = some ⟨none, false, parentheses⟩ := by
      simp_all [Scan.step]
    rw [Scan.along_cons, own]
    exact ih within
  | @quoted enclosed quote text cs mark inside _ ih =>
    have opened : Scan.step ⟨none, false, parentheses⟩ quote =
        some ⟨some quote, false, parentheses⟩ := by
      have marks : quote = '"' ∨ quote = '\'' := by simpa using mark
      simp only [Scan.step, if_pos marks]
    have closed : Scan.step ⟨some quote, false, parentheses⟩ quote =
        some ⟨none, false, parentheses⟩ := by
      have unslashed : quote ≠ '\\' := by
        rintro rfl
        revert mark
        decide
      simp [Scan.step, unslashed]
    rw [Scan.along_cons, opened, Option.bind_some, Scan.along_append, inside.along,
      Option.bind_some, Scan.along_cons, closed]
    exact ih within
  | parentheses _ _ ih_inside ih =>
    have opened : Scan.step ⟨none, false, parentheses⟩ '(' = some ⟨none, false, parentheses + 1⟩ :=
      rfl
    have closed : Scan.step ⟨none, false, parentheses + 1⟩ ')' = some ⟨none, false, parentheses⟩ :=
      rfl
    rw [Scan.along_cons, opened, Option.bind_some, Scan.along_append,
      ih_inside fun _ => Nat.succ_pos _, Option.bind_some, Scan.along_cons, closed]
    exact ih within

theorem Balanced.isWhole {text : List Char} (balanced : Balanced false text) : IsWhole text :=
  balanced.along (by simp)

/-- The characters that have a place of their own in a balanced text. -/
def reserved : List Char := ['"', '\'', '(', ')'] ++ '\\' :: Scan.marks

theorem balanced_of_plain {enclosed : Bool} {text : List Char}
    (plain : text.all (fun c => !reserved.contains c) = true) : Balanced enclosed text := by
  induction text with
  | nil => exact .nil
  | cons c text ih =>
    rw [List.all_cons, Bool.and_eq_true] at plain
    have own : c ∉ reserved := by simpa using plain.1
    obtain ⟨unopened, unmarked⟩ := not_or.mp (mt List.mem_append.mpr own)
    exact .char unopened (fun _ => unmarked) (ih plain.2)

theorem Balanced.append {enclosed : Bool} {front back : List Char} (first : Balanced enclosed front)
    (last : Balanced enclosed back) : Balanced enclosed (front ++ back) := by
  induction first with
  | nil => exact last
  | char unopened unmarked _ ih => exact .char unopened unmarked (ih last)
  | @quoted _ quote text cs mark inside _ ih =>
    rw [List.cons_append, List.append_assoc, List.cons_append]
    exact .quoted mark inside (ih last)
  | @parentheses _ text cs inside _ _ ih =>
    rw [List.cons_append, List.append_assoc, List.cons_append]
    exact .parentheses inside (ih last)

/-- A block of a stylesheet: a header with declarations or with other blocks. -/
inductive Block where
  | rule (header : String) (declarations : List (String × String))
  | group (header : String) (blocks : List Block)

/-- What stands at the root of a stylesheet. -/
inductive Item where
  | statement (text : String)
  | block (block : Block)

/-- A declaration of a name and a value, with a gap behind its colon. -/
def declarationText (gap : List Char) (entry : String × String) : List Char :=
  entry.1.toList ++ ':' :: (gap ++ entry.2.toList)

mutual

def Block.minified : Block → List Char
  | .rule header declarations =>
    header.toList ++ '\x7b' ::
      ([';'].intercalate (declarations.map (declarationText [])) ++ ['\x7d'])
  | .group header blocks => header.toList ++ '\x7b' :: (minifiedBlocks blocks ++ ['\x7d'])

def minifiedBlocks : List Block → List Char
  | [] => []
  | block :: rest => block.minified ++ minifiedBlocks rest

end

mutual

def Block.lines (depth : Nat) : Block → List Line
  | .rule header declarations =>
    ⟨depth, header.toList ++ [' ', '\x7b']⟩ :: (declarations.map (fun entry =>
      ⟨depth + 1, declarationText [' '] entry ++ [';']⟩) ++ [⟨depth, ['\x7d']⟩])
  | .group header blocks =>
    ⟨depth, header.toList ++ [' ', '\x7b']⟩ ::
      (linesOfBlocks (depth + 1) blocks ++ [⟨depth, ['\x7d']⟩])

def linesOfBlocks (depth : Nat) : List Block → List Line
  | [] => []
  | block :: rest => block.lines depth ++ linesOfBlocks depth rest

end

def Item.minified : Item → List Char
  | .statement text => text.toList ++ [';']
  | .block root => root.minified

def Item.lines : Item → List Line
  | .statement text => [⟨0, text.toList ++ [';']⟩]
  | .block root => root.lines 0

/-- A line as it is written, two spaces deep for each block around it. -/
def Line.spelled (line : Line) : List Char :=
  List.replicate (2 * line.depth) ' ' ++ line.text ++ ['\n']

def Item.laidOut (item : Item) : List Char := item.lines.flatMap Line.spelled

def minified (sheet : List Item) : String := String.ofList (sheet.flatMap Item.minified)

/-- The lines of the items, with a blank line between two of them. -/
def layout (sheet : List Item) : String :=
  String.ofList (['\n'].intercalate (sheet.map Item.laidOut))

structure IsText (text : String) : Prop where
  balanced : Balanced false text.toList
  trimmed : Text.trim text = text
  shown : text ≠ ""

structure IsDeclaration (entry : String × String) : Prop where
  balanced : Balanced false (declarationText [] entry)
  name_trimmed : Text.trim entry.1 = entry.1
  name_shown : entry.1 ≠ ""
  name_plain : ':' ∉ entry.1.toList
  name_unmarked : entry.1.toList.head? ≠ some '@'
  value_trimmed : Text.trim entry.2 = entry.2
  value_shown : entry.2 ≠ ""

inductive Block.IsWellFormed : Block → Prop where
  | rule {header declarations} : IsText header → (∀ entry ∈ declarations, IsDeclaration entry) →
      IsWellFormed (.rule header declarations)
  | group {header blocks} : IsText header → (∀ block ∈ blocks, block.IsWellFormed) →
      IsWellFormed (.group header blocks)

inductive Item.IsWellFormed : Item → Prop where
  | statement {text} : IsText text → text.toList.head? = some '@' → IsWellFormed (.statement text)
  | block {block : Block} : block.IsWellFormed → IsWellFormed (.block block)

theorem minifiedBlocks_eq (blocks : List Block) :
    minifiedBlocks blocks = blocks.flatMap Block.minified := by
  induction blocks with
  | nil => rfl
  | cons block rest ih => rw [minifiedBlocks, ih, List.flatMap_cons]

theorem linesOfBlocks_eq (depth : Nat) (blocks : List Block) :
    linesOfBlocks depth blocks = blocks.flatMap (Block.lines depth) := by
  induction blocks with
  | nil => rfl
  | cons block rest ih => rw [linesOfBlocks, ih, List.flatMap_cons]

section Texts

variable {text : String} {entry : String × String}

theorem edged_toList (trimmed : Text.trim text = text) (shown : text ≠ "") : Edged text.toList := by
  apply edged_of_trim
  · rw [← String.toList_inj, Text.trim, String.toList_ofList] at trimmed
    exact trimmed
  · simpa using shown

theorem IsText.edged (own : IsText text) : Edged text.toList := edged_toList own.trimmed own.shown

theorem IsDeclaration.edged (own : IsDeclaration entry) (gap : List Char) :
    Edged (declarationText gap entry) := by
  have joined := (edged_toList own.name_trimmed own.name_shown).append
    (edged_toList own.value_trimmed own.value_shown) (':' :: gap)
  simpa [declarationText] using joined

theorem splitOnce?_of_plain {name : List Char} (plain : ':' ∉ name) (rest : List Char) :
    splitOnce? ':' (name ++ ':' :: rest) = some (name, rest) := by
  induction name with
  | nil => rfl
  | cons c name ih =>
    obtain ⟨other, plain⟩ := not_or.mp (mt List.mem_cons.mpr plain)
    simp [splitOnce?, Ne.symm other, ih plain]

section Gap

variable (own : IsDeclaration entry) {gap : List Char} (blank : ∀ c ∈ gap, Text.isBlank c = true)

include own blank

theorem IsDeclaration.isWhole : IsWhole (declarationText gap entry) :=
  own.balanced.isWhole.spaced blank

/-- A declaration is printed with one blank behind its colon, whatever blanks stand there. -/
theorem IsDeclaration.printed :
    declaration (declarationText gap entry) = declarationText [' '] entry := by
  have name := (edged_toList own.name_trimmed own.name_shown).trim
  have value := (edged_toList own.value_trimmed own.value_shown).trim
  have unmarked : ∀ rest, declarationText gap entry ≠ '@' :: rest := by
    intro rest same
    apply own.name_unmarked
    cases chars : entry.1.toList with
    | nil => simp [declarationText, chars] at same
    | cons c others =>
      rw [declarationText, chars] at same
      rw [List.head?_cons, (List.cons.inj same).1]
  unfold declaration
  split
  · next rest same => exact absurd same (unmarked rest)
  · rw [declarationText, splitOnce?_of_plain own.name_plain]
    simp only [name, trim_blank_append blank, value]
    rfl

theorem IsDeclaration.declaring_eq (depth : Nat) :
    declaring depth (declarationText gap entry) =
      ⟨depth, declarationText [' '] entry ++ [';']⟩ := by
  rw [declaring, (own.edged gap).trim, own.printed blank]

end Gap

theorem opening_of_edged {header : List Char} (edged : Edged header) (depth : Nat) :
    opening depth header = ⟨depth, header ++ [' ', '\x7b']⟩ := by
  rw [opening, edged.trim]

end Texts

/-- Reading the text at rest, at a depth, writes the lines of an item and comes to rest again. -/
def PrintsItem (depth : Nat) (css : List Char) (lines : List Line) : Prop :=
  ∀ state : State, state.Rests → state.depth = depth →
    ∃ gap, (∀ c ∈ gap, Text.isBlank c = true) ∧ css.foldl State.read state =
      (state.holding depth (addLines state.written lines) gap).endItem

section Printing

variable {depth : Nat} {css : List Char} {lines : List Line}

theorem PrintsItem.prints (item : PrintsItem depth css lines) (inside : 0 < depth) :
    Prints depth css lines := by
  rintro state rests rfl
  obtain ⟨gap, blank, read⟩ := item state rests rfl
  rw [State.endItem_holding, if_neg (Nat.ne_of_gt inside)] at read
  exact ⟨gap, blank, read⟩

theorem PrintsItem.padded {front back : List Char} (item : PrintsItem depth css lines)
    (front_blank : ∀ c ∈ front, Text.isBlank c = true)
    (back_blank : ∀ c ∈ back, Text.isBlank c = true) :
    PrintsItem depth (front ++ css ++ back) lines := by
  rintro state rests rfl
  obtain ⟨before, before_blank, opened⟩ := prints_blank front_blank state rests rfl
  obtain ⟨gap, blank, read⟩ := item _ (rests.holding before_blank) rfl
  refine ⟨back.reverse ++ gap, by simpa [or_imp, forall_and] using ⟨back_blank, blank⟩, ?_⟩
  rw [List.foldl_append, List.foldl_append, opened, read, State.holding_holding,
    State.endItem_holding, State.foldl_holding rests.outside (isWhole_of_blank back_blank),
    State.endItem_holding]
  rfl

theorem Block.IsWellFormed.prints_minified {block : Block} (wellFormed : block.IsWellFormed)
    (depth : Nat) : PrintsItem depth block.minified (block.lines depth) := by
  induction wellFormed generalizing depth with
  | @rule header declarations own each =>
    rintro state rests rfl
    refine ⟨[], List.forall_mem_nil _, ?_⟩
    have texts : ∀ text ∈ declarations.map (declarationText []), IsWhole text ∧ ink text ≠ [] := by
      intro text member
      obtain ⟨entry, inside, rfl⟩ := List.mem_map.mp member
      have declared := each entry inside
      exact ⟨declared.isWhole (List.forall_mem_nil _), (declared.edged []).ink_ne_nil⟩
    have declared : (declarations.map (declarationText [])).map (declaring (state.depth + 1)) =
        declarations.map fun entry => ⟨state.depth + 1, declarationText [' '] entry ++ [';']⟩ := by
      rw [List.map_map]
      exact List.map_congr_left fun entry member =>
        (each entry member).declaring_eq (List.forall_mem_nil _) _
    rw [Block.minified, foldl_rule rests own.balanced.isWhole own.edged.ink_ne_nil texts, declared,
      opening_of_edged own.edged]
    rfl
  | @group header blocks own _ ih =>
    rintro state rests rfl
    refine ⟨[], List.forall_mem_nil _, ?_⟩
    have body : Prints (state.depth + 1) (blocks.flatMap Block.minified)
        (blocks.flatMap (Block.lines (state.depth + 1))) :=
      Prints.flatMap fun block member => (ih block member _).prints (Nat.succ_pos _)
    rw [Block.minified, minifiedBlocks_eq,
      foldl_block rests own.balanced.isWhole own.edged.ink_ne_nil body, opening_of_edged own.edged,
      ← linesOfBlocks_eq]
    rfl

theorem blank_indent (count : Nat) : ∀ c ∈ List.replicate count ' ', Text.isBlank c = true := by
  intro c member
  rw [List.eq_of_mem_replicate member]
  decide

theorem blank_break : ∀ c ∈ ['\n'], Text.isBlank c = true :=
  List.forall_mem_singleton.mpr (by decide)

theorem blank_space : ∀ c ∈ [' '], Text.isBlank c = true :=
  List.forall_mem_singleton.mpr (by decide)

theorem prints_framed {header : String} (own : IsText header)
    (body : Prints (depth + 1) css lines) :
    PrintsItem depth (Line.spelled ⟨depth, header.toList ++ [' ', '\x7b']⟩ ++
        (css ++ Line.spelled ⟨depth, ['\x7d']⟩))
      (⟨depth, header.toList ++ [' ', '\x7b']⟩ :: (lines ++ [⟨depth, ['\x7d']⟩])) := by
  have inner : Prints (depth + 1) (['\n'] ++ (css ++ List.replicate (2 * depth) ' '))
      ([] ++ (lines ++ [])) :=
    (prints_blank blank_break).append (body.append (prints_blank (blank_indent _)))
  have framed : PrintsItem depth ((List.replicate (2 * depth) ' ' ++ header.toList ++ [' ']) ++
      '\x7b' :: ((['\n'] ++ (css ++ List.replicate (2 * depth) ' ')) ++ ['\x7d']))
      (⟨depth, header.toList ++ [' ', '\x7b']⟩ :: (lines ++ [⟨depth, ['\x7d']⟩])) := by
    rintro state rests rfl
    refine ⟨[], List.forall_mem_nil _, ?_⟩
    have whole := own.balanced.isWhole.padded (blank_indent (2 * state.depth)) blank_space
    have shown : ink (List.replicate (2 * state.depth) ' ' ++ header.toList ++ [' ']) ≠ [] := by
      simp [own.edged.ink_ne_nil]
    rw [foldl_block rests whole shown inner, opening, trim_padded (blank_indent _) blank_space,
      own.edged.trim]
    simp [ending]
  have spaced := framed.padded (List.forall_mem_nil _) blank_break
  simpa [Line.spelled] using spaced

theorem prints_laidOut_declaration {entry : String × String} (own : IsDeclaration entry)
    (inside : 0 < depth) : Prints depth (Line.spelled ⟨depth, declarationText [' '] entry ++ [';']⟩)
      [⟨depth, declarationText [' '] entry ++ [';']⟩] := by
  have whole := (isWhole_of_blank (blank_indent (2 * depth))).append (own.isWhole blank_space)
  have shown : ink (List.replicate (2 * depth) ' ' ++ declarationText [' '] entry) ≠ [] := by
    simp [(own.edged [' ']).ink_ne_nil]
  have declared : declaring depth (List.replicate (2 * depth) ' ' ++ declarationText [' '] entry) =
      ⟨depth, declarationText [' '] entry ++ [';']⟩ := by
    rw [← own.declaring_eq blank_space, declaring, trim_blank_append (blank_indent _), declaring]
  have read := (prints_declaration inside whole shown).append (prints_blank blank_break)
  rw [declared] at read
  simpa [Line.spelled] using read

theorem Block.IsWellFormed.prints_laidOut {block : Block} (wellFormed : block.IsWellFormed)
    (depth : Nat) :
    PrintsItem depth ((block.lines depth).flatMap Line.spelled) (block.lines depth) := by
  induction wellFormed generalizing depth with
  | @rule header declarations own each =>
    have body := Prints.flatMap fun entry member =>
      prints_laidOut_declaration (each entry member) (Nat.succ_pos depth)
    have read := prints_framed own body
    simpa [Block.lines, List.flatMap_map, ← List.map_eq_flatMap] using read
  | @group header blocks own _ ih =>
    have body :=
      Prints.flatMap fun block member => (ih block member (depth + 1)).prints (Nat.succ_pos _)
    have read := prints_framed own body
    simpa [Block.lines, linesOfBlocks_eq, List.flatMap_assoc] using read

end Printing

section Items

variable {item : Item} {text : String}

/-- A statement is no declaration, whatever colons it holds. -/
theorem declaring_statement (own : IsText text) (mark : text.toList.head? = some '@') :
    declaring 0 text.toList = ⟨0, text.toList ++ [';']⟩ := by
  have kept : declaration text.toList = text.toList := by
    cases chars : text.toList with
    | nil =>
      rw [chars] at mark
      cases mark
    | cons c rest =>
      rw [chars] at mark
      obtain rfl := Option.some.inj mark
      rw [declaration, ← chars, own.edged.trim]
  rw [declaring, own.edged.trim, kept]

theorem prints_statement (own : IsText text) (mark : text.toList.head? = some '@') :
    PrintsItem 0 (text.toList ++ [';']) [⟨0, text.toList ++ [';']⟩] := by
  rintro state rests root
  refine ⟨[], List.forall_mem_nil _, ?_⟩
  rw [foldl_statement rests own.balanced.isWhole own.edged.ink_ne_nil, root,
    declaring_statement own mark]

theorem Item.IsWellFormed.prints_minified (wellFormed : item.IsWellFormed) :
    PrintsItem 0 item.minified item.lines := by
  cases wellFormed with
  | statement own mark => exact prints_statement own mark
  | block own => exact own.prints_minified 0

theorem Item.IsWellFormed.prints_laidOut (wellFormed : item.IsWellFormed) :
    PrintsItem 0 item.laidOut item.lines := by
  cases wellFormed with
  | statement own mark =>
    have spaced := (prints_statement own mark).padded (List.forall_mem_nil _) blank_break
    simpa [Item.laidOut, Item.lines, Line.spelled] using spaced
  | block own => exact own.prints_laidOut 0

theorem flatMap_spelled_ending (front : List Line) : (front ++ [ending 0]).flatMap Line.spelled =
    front.flatMap Line.spelled ++ ['\x7d'] ++ ['\n'] := by
  simp [ending, Line.spelled]

/-- The last line of an item ends in a semicolon or a brace. -/
theorem Item.laidOut_eq (item : Item) :
    ∃ front c, item.laidOut = front ++ [c] ++ ['\n'] ∧ Text.isBlank c = false := by
  rcases item with text | ⟨header, declarations⟩ | ⟨header, blocks⟩
  · exact ⟨text.toList, ';', by simp [Item.laidOut, Item.lines, Line.spelled], by decide⟩
  all_goals exact ⟨_, '\x7d', flatMap_spelled_ending (_ :: _), by decide⟩

theorem Item.exists_line (item : Item) :
    ∃ text rest, text ≠ [] ∧ item.lines = ⟨0, text⟩ :: rest := by
  rcases item with text | ⟨header, declarations⟩ | ⟨header, blocks⟩ <;>
    exact ⟨_, _, by simp, rfl⟩

end Items

section Sheet

/-- What is written once these items are, each with the line break behind it. -/
def pages (written : List Char) (items : List (List Line)) : List Char :=
  items.foldl (fun written lines => addLines written lines ++ ['\n']) written

theorem addLines_break {written : List Char} (some_char : written ≠ []) (lines : List Line) :
    addLines written lines ++ ['\n'] = written ++ '\n' :: lines.flatMap Line.spelled := by
  induction lines generalizing written with
  | nil => rfl
  | cons line lines ih =>
    have added : addLine written line.depth line.text =
        written ++ '\n' :: (List.replicate (2 * line.depth) ' ' ++ line.text) := by
      simp [addLine, some_char]
    rw [addLines_cons, ih (by simp [added]), added, List.flatMap_cons, Line.spelled]
    simp

theorem addLines_nil_break {text : List Char} (some_char : text ≠ []) (lines : List Line) :
    addLines [] (⟨0, text⟩ :: lines) ++ ['\n'] = (⟨0, text⟩ :: lines).flatMap Line.spelled := by
  have first : addLine [] 0 text = text := by simp [addLine]
  rw [addLines_cons, first, addLines_break some_char, List.flatMap_cons]
  simp [Line.spelled]

theorem pages_of_ne_nil {written : List Char} (some_char : written ≠ [])
    (items : List (List Line)) :
    pages written items = written ++ items.flatMap ('\n' :: ·.flatMap Line.spelled) := by
  induction items generalizing written with
  | nil => simp [pages]
  | cons lines items ih =>
    have own := addLines_break some_char lines
    rw [pages, List.foldl_cons, own, ← pages, ih (by simp [some_char]), List.flatMap_cons,
      List.append_assoc]

theorem intercalate_cons (separator first : List Char) (rest : List (List Char)) :
    separator.intercalate (first :: rest) = first ++ rest.flatMap (separator ++ ·) := by
  induction rest generalizing first with
  | nil => simp [List.intercalate]
  | cons second rest ih =>
    have joined : separator.intercalate (first :: second :: rest) =
        first ++ (separator ++ separator.intercalate (second :: rest)) := by
      simp [List.intercalate]
    rw [joined, ih, List.flatMap_cons]
    simp

theorem pages_nil (sheet : List Item) :
    pages [] (sheet.map Item.lines) = ['\n'].intercalate (sheet.map Item.laidOut) := by
  cases sheet with
  | nil => rfl
  | cons item sheet =>
    have own : addLines [] item.lines ++ ['\n'] = item.laidOut := by
      obtain ⟨text, rest, some_char, split⟩ := item.exists_line
      rw [Item.laidOut, split, addLines_nil_break some_char]
    have some_page : item.laidOut ≠ [] := by
      obtain ⟨front, c, split, -⟩ := item.laidOut_eq
      simp [split]
    rw [List.map_cons, pages, List.foldl_cons, own, ← pages, pages_of_ne_nil some_page,
      List.map_cons, intercalate_cons, List.flatMap_map, List.flatMap_map]
    rfl

/-- Reading the text at rest, at the root, writes these items and comes to rest again. -/
def PrintsSheet (css : List Char) (items : List (List Line)) : Prop :=
  ∀ state : State, state.Rests → state.depth = 0 →
    ∃ gap, (∀ c ∈ gap, Text.isBlank c = true) ∧
      css.foldl State.read state = state.holding 0 (pages state.written items) gap

theorem printsSheet_nil : PrintsSheet [] [] := by
  rintro state rests root
  exact ⟨state.pending, rests.blank, root ▸ rfl⟩

theorem PrintsSheet.cons {css rest : List Char} {lines : List Line} {items : List (List Line)}
    (first : PrintsItem 0 css lines) (others : PrintsSheet rest items) :
    PrintsSheet (css ++ rest) (lines :: items) := by
  rintro state rests root
  obtain ⟨gap, blank, read⟩ := first state rests root
  rw [State.endItem_holding, if_pos rfl] at read
  obtain ⟨last, last_blank, read_others⟩ := others _ (rests.holding blank) rfl
  refine ⟨last, last_blank, ?_⟩
  rw [List.foldl_append, read, read_others]
  rfl

theorem printsSheet_flatMap {spell : Item → List Char} {sheet : List Item}
    (each : ∀ item ∈ sheet, PrintsItem 0 (spell item) item.lines) :
    PrintsSheet (sheet.flatMap spell) (sheet.map Item.lines) := by
  induction sheet with
  | nil => exact printsSheet_nil
  | cons item sheet ih =>
    obtain ⟨own, others⟩ := List.forall_mem_cons.mp each
    exact PrintsSheet.cons own (ih others)

theorem intercalate_laidOut_eq {sheet : List Item} (some_item : sheet ≠ []) :
    ∃ front c, ['\n'].intercalate (sheet.map Item.laidOut) = front ++ [c] ++ ['\n'] ∧
      Text.isBlank c = false := by
  obtain ⟨first, others, rfl⟩ := List.exists_cons_of_ne_nil some_item
  rw [List.map_cons, intercalate_cons, List.flatMap_map]
  rcases List.eq_nil_or_concat' others with rfl | ⟨middle, last, rfl⟩
  · simpa using first.laidOut_eq
  · obtain ⟨front, c, split, shown⟩ := last.laidOut_eq
    refine ⟨first.laidOut ++ (middle.flatMap (['\n'] ++ ·.laidOut) ++ ('\n' :: front)),
      c, ?_, shown⟩
    simp [split]

/-- Of line breaks at the end one is kept. -/
theorem chars_of_written {css front : List Char} {c : Char} (shown : Text.isBlank c = false)
    (written : (css.foldl State.read .start).flushDeclaration.written = front ++ [c] ++ ['\n']) :
    chars css = front ++ [c] ++ ['\n'] := by
  have trimmed : trimEnd (front ++ [c] ++ ['\n']) = front ++ [c] := by
    rw [trimEnd_append blank_break, trimEnd_concat front shown]
  rw [chars, written, trimmed]
  simp

/-- What is printed has the lines of the items, with a blank line between two of them. -/
theorem PrintsSheet.chars {css : List Char} {sheet : List Item}
    (read : PrintsSheet css (sheet.map Item.lines)) :
    chars css = ['\n'].intercalate (sheet.map Item.laidOut) := by
  obtain ⟨gap, blank, ended⟩ := read .start ⟨rfl, List.forall_mem_nil _⟩ rfl
  have written : (css.foldl State.read .start).flushDeclaration.written =
      ['\n'].intercalate (sheet.map Item.laidOut) := by
    rw [ended, State.flushDeclaration_of_blank blank, State.written_holding, ← pages_nil]
    rfl
  by_cases none : sheet = []
  · subst none
    rw [Layout.chars, written]
    rfl
  · obtain ⟨front, c, split, shown⟩ := intercalate_laidOut_eq none
    rw [split]
    exact chars_of_written shown (written.trans split)

/-- A well-formed stylesheet is printed as its layout: a line for each header, declaration and
closing brace, indented by the blocks around it, with a blank line between two items. The layout
stays as it is. -/
theorem pretty_minified {sheet : List Item} (wellFormed : ∀ item ∈ sheet, item.IsWellFormed) :
    pretty (minified sheet) = layout sheet ∧ pretty (layout sheet) = layout sheet := by
  have printed {text : List Char} (read : PrintsSheet text (sheet.map Item.lines)) :
      pretty (String.ofList text) = layout sheet := by
    rw [pretty, String.toList_ofList, read.chars, layout]
  refine ⟨printed (printsSheet_flatMap fun item member => (wellFormed item member).prints_minified),
    printed ?_⟩
  cases sheet with
  | nil => exact printsSheet_nil
  | cons item sheet =>
    obtain ⟨own, others⟩ := List.forall_mem_cons.mp wellFormed
    rw [List.map_cons, List.map_cons, intercalate_cons, List.flatMap_map]
    refine PrintsSheet.cons own.prints_laidOut (printsSheet_flatMap fun item member => ?_)
    have spaced := (others item member).prints_laidOut.padded blank_break (List.forall_mem_nil _)
    rwa [List.append_nil] at spaced

theorem pretty_minified_print :
    let sheet : List Item := [.statement "@import url(a;b)",
      .block (.group "@media print" [.rule ".a" [("content", "'\x7d'"), ("color", "red")]])]
    (∀ item ∈ sheet, item.IsWellFormed) ∧
      layout sheet = "@import url(a;b);\n\n" ++
        "@media print \x7b\n  .a \x7b\n    content: '\x7d';\n    color: red;\n  \x7d\n\x7d\n" ∧
      pretty (minified sheet) = layout sheet ∧ pretty (layout sheet) = layout sheet := by
  intro sheet
  have statement : IsText "@import url(a;b)" := by
    refine ⟨?_, by decide, by decide⟩
    have name : Balanced false "@import url".toList := balanced_of_plain (by decide)
    have address : Balanced true "a;b".toList :=
      .char (by decide) (by simp) (.char (by decide) (by simp) (.char (by decide) (by simp) .nil))
    exact name.append (.parentheses address .nil)
  have media : IsText "@media print" := ⟨balanced_of_plain (by decide), by decide, by decide⟩
  have selector : IsText ".a" := ⟨balanced_of_plain (by decide), by decide, by decide⟩
  have content : IsDeclaration ("content", "'\x7d'") := by
    have name : Balanced false "content:".toList := balanced_of_plain (by decide)
    have brace : Quoted '\'' ['\x7d'] := .char (by decide) (by decide) .nil
    exact ⟨name.append (.quoted (by decide) brace .nil), by decide, by decide, by decide, by decide,
      by decide, by decide⟩
  have color : IsDeclaration ("color", "red") :=
    ⟨balanced_of_plain (by decide), by decide, by decide, by decide, by decide,
      by decide, by decide⟩
  have rule : (Block.rule ".a" [("content", "'\x7d'"), ("color", "red")]).IsWellFormed := by
    refine .rule selector ?_
    simpa using ⟨content, color⟩
  have wellFormed : ∀ item ∈ sheet, item.IsWellFormed := by
    simpa [sheet] using ⟨Item.IsWellFormed.statement statement rfl,
      Item.IsWellFormed.block (.group media (List.forall_mem_singleton.mpr rule))⟩
  exact ⟨wellFormed, by decide, pretty_minified wellFormed⟩

end Sheet

end Layout

end AtomicCss
