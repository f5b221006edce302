import AtomicCss.Proofs.Selector.Brackets

/-!
Strings in selector keys.

A key is read as plain characters and strings, each with its quotes. Its spacing is collapsed
character by character, without regard to strings: that collapses what is plain, and each string on
its own. Since every string ends with a quote and keeps its quotes, a changed string shows in the
text that it is part of.
-/

namespace AtomicCss

namespace Text

section Squeeze

variable {α : Type} (isGap : α → Bool) (space : α)

/-- One space, if gaps come next and something else behind them. -/
def spaceBefore (items : List α) : List α :=
  if items.head?.any isGap && !items.all isGap then [space] else []

/-- Items without the gaps at both ends, and with one space for each run of gaps in between. -/
def squeeze : List α → List α
  | [] => []
  | item :: rest => if isGap item then squeeze rest
    else item :: (spaceBefore isGap space rest ++ squeeze rest)

variable {isGap space}

theorem squeeze_cons_gap {item : α} (gap : isGap item = true) (rest : List α) :
    squeeze isGap space (item :: rest) = squeeze isGap space rest := if_pos gap

theorem squeeze_cons_shown {item : α} (shown : isGap item = false) (rest : List α) :
    squeeze isGap space (item :: rest) =
      item :: (spaceBefore isGap space rest ++ squeeze isGap space rest) := by
  rw [squeeze, shown]
  rfl

theorem squeeze_of_gaps {items : List α} (gaps : ∀ item ∈ items, isGap item = true)
    (rest : List α) :
    squeeze isGap space (items ++ rest) = squeeze isGap space rest := by
  induction items with
  | nil => rfl
  | cons item others ih =>
    obtain ⟨gap, gaps⟩ := List.forall_mem_cons.mp gaps
    rw [List.cons_append, squeeze_cons_gap gap, ih gaps]

theorem spaceBefore_append {front : List α} (shown : ∃ item ∈ front, isGap item = false)
    (back : List α) :
    spaceBefore isGap space (front ++ back) = spaceBefore isGap space front := by
  obtain ⟨item, member, plain⟩ := shown
  have never (more : List α) : (front ++ more).all isGap = false :=
    List.all_eq_false.mpr ⟨item, List.mem_append_left _ member, by simp [plain]⟩
  have alone := never []
  rw [List.append_nil] at alone
  have head : (front ++ back).head? = front.head? :=
    List.head?_append_of_ne_nil _ (List.ne_nil_of_mem member)
  rw [spaceBefore, never, head, spaceBefore, alone]

theorem spaceBefore_of_gaps {items : List α} (gaps : ∀ item ∈ items, isGap item = true) :
    spaceBefore isGap space items = [] := by
  simp [spaceBefore, List.all_eq_true.mpr gaps]

theorem squeeze_append_gaps (front : List α) {back : List α}
    (gaps : ∀ item ∈ back, isGap item = true) :
    squeeze isGap space (front ++ back) = squeeze isGap space front := by
  induction front with
  | nil =>
    have alone : squeeze isGap space (back ++ []) = [] := squeeze_of_gaps gaps []
    rwa [List.append_nil] at alone
  | cons item rest ih =>
    have before : spaceBefore isGap space (rest ++ back) = spaceBefore isGap space rest := by
      by_cases shown : ∃ item ∈ rest, isGap item = false
      · exact spaceBefore_append shown back
      · have all : ∀ item ∈ rest, isGap item = true := by simpa using shown
        rw [spaceBefore_of_gaps all, spaceBefore_of_gaps (List.forall_mem_append.mpr ⟨all, gaps⟩)]
    rw [List.cons_append]
    cases gap : isGap item with
    | true => rw [squeeze_cons_gap gap, squeeze_cons_gap gap, ih]
    | false => rw [squeeze_cons_shown gap, squeeze_cons_shown gap, ih, before]

/-- The length of a run of gaps does not show. -/
theorem squeeze_gaps (front : List α) {first : α} {more : List α} (gap : isGap first = true)
    (gaps : ∀ item ∈ more, isGap item = true) (back : List α) :
    squeeze isGap space (front ++ first :: (more ++ back)) = squeeze isGap space
      (front ++ first :: back) := by
  induction front with
  | nil =>
    rw [List.nil_append, List.nil_append, squeeze_cons_gap gap, squeeze_cons_gap gap,
      squeeze_of_gaps gaps]
  | cons item rest ih =>
    have before : spaceBefore isGap space (rest ++ first :: (more ++ back)) =
        spaceBefore isGap space (rest ++ first :: back) := by
      have all : more.all isGap = true := List.all_eq_true.mpr gaps
      have head : (rest ++ first :: (more ++ back)).head? = (rest ++ first :: back).head? := by
        cases rest <;> rfl
      simp only [spaceBefore, head, List.all_append, List.all_cons, all, Bool.true_and]
    rw [List.cons_append, List.cons_append]
    cases shown : isGap item with
    | true => rw [squeeze_cons_gap shown, squeeze_cons_gap shown, ih]
    | false => rw [squeeze_cons_shown shown, squeeze_cons_shown shown, ih, before]

theorem squeeze_append {front : List α} {last : α} (shown : isGap last = false) (back : List α) :
    squeeze isGap space (front ++ last :: back) =
      squeeze isGap space (front ++ [last]) ++
        (spaceBefore isGap space back ++ squeeze isGap space back) := by
  induction front with
  | nil =>
    have nothing : spaceBefore isGap space [] ++ squeeze isGap space [] = [] := rfl
    simp [squeeze_cons_shown shown, nothing]
  | cons item rest ih =>
    rw [List.cons_append, List.cons_append]
    cases gap : isGap item with
    | true => rw [squeeze_cons_gap gap, squeeze_cons_gap gap, ih]
    | false =>
      have alike : spaceBefore isGap space (rest ++ last :: back) =
          spaceBefore isGap space (rest ++ [last]) := by
        rw [List.append_cons, spaceBefore_append ⟨last, by simp, shown⟩]
      rw [squeeze_cons_shown gap, squeeze_cons_shown gap, ih, alike, List.cons_append,
        List.append_assoc]

theorem exists_squeeze_concat (front : List α) {last : α} (shown : isGap last = false) :
    ∃ kept, squeeze isGap space (front ++ [last]) = kept ++ [last] := by
  induction front with
  | nil => exact ⟨[], squeeze_cons_shown shown []⟩
  | cons item rest ih =>
    obtain ⟨kept, ends⟩ := ih
    rw [List.cons_append]
    cases gap : isGap item with
    | true => exact ⟨kept, (squeeze_cons_gap gap _).trans ends⟩
    | false =>
      refine ⟨item :: (spaceBefore isGap space (rest ++ [last]) ++ kept), ?_⟩
      rw [squeeze_cons_shown gap, ends, List.cons_append, List.append_assoc]

theorem squeeze_map {change : α → α} (spaced : change space = space)
    (gaps : ∀ item, isGap (change item) = isGap item) (items : List α) :
    squeeze isGap space (items.map change) = (squeeze isGap space items).map change := by
  have before (items : List α) :
      spaceBefore isGap space (items.map change) = (spaceBefore isGap space items).map change := by
    have same : isGap ∘ change = isGap := funext gaps
    have head : (items.map change).head?.any isGap = items.head?.any isGap := by
      cases items <;> simp [gaps]
    unfold spaceBefore
    rw [head, List.all_map, same]
    split <;> simp [spaced]
  induction items with
  | nil => rfl
  | cons item rest ih =>
    rw [List.map_cons]
    cases gap : isGap item with
    | true => rw [squeeze_cons_gap ((gaps item).trans gap), squeeze_cons_gap gap, ih]
    | false =>
      rw [squeeze_cons_shown ((gaps item).trans gap), squeeze_cons_shown gap, ih, before,
        List.map_cons, List.map_append]

theorem mem_squeeze {item : α} (shown : isGap item = false) (other : item ≠ space)
    {items : List α} :
    item ∈ squeeze isGap space items ↔ item ∈ items := by
  induction items with
  | nil => rfl
  | cons first rest ih =>
    have unspaced : item ∉ spaceBefore isGap space rest := by
      unfold spaceBefore
      split <;> simp [other]
    cases gap : isGap first with
    | true =>
      have differs : item ≠ first := by
        rintro rfl
        simp [shown] at gap
      simp [squeeze_cons_gap gap, ih, differs]
    | false => simp [squeeze_cons_shown gap, ih, unspaced]

end Squeeze

namespace Chars

theorem collapse_cons_blank {c : Char} (blank : isBlank c = true) (cs : List Char) :
    collapse (c :: cs) = collapse cs := by
  simp [collapse, words, split, blank]

theorem words_eq_nil_iff {cs : List Char} : words cs = [] ↔ cs.all isBlank = true := by
  have joined : (words cs).flatten = ink cs := by
    rw [words, List.flatten_filter_not_isEmpty, flatten_split]
  have inked : ink cs = [] ↔ cs.all isBlank = true := by
    simp [ink, List.filter_eq_nil_iff]
  rw [← inked, ← joined]
  constructor
  · intro none
    rw [none]
    rfl
  · intro empty
    apply List.eq_nil_iff_forall_not_mem.mpr
    intro word member
    have shown : word.isEmpty = false := by simpa using (List.mem_filter.mp member).2
    rw [List.flatten_eq_nil_iff.mp empty word member] at shown
    cases shown

theorem intercalate_cons_word (word : List Char) (others : List (List Char)) :
    [' '].intercalate (word :: others) =
      word ++ if others = [] then [] else ' ' :: [' '].intercalate others := by
  cases others with
  | nil => simp
  | cons next more => simp [List.intercalate]

theorem collapse_cons_shown {c : Char} (shown : isBlank c = false) (cs : List Char) :
    collapse (c :: cs) = c :: (spaceBefore isBlank ' ' cs ++ collapse cs) := by
  cases cs with
  | nil => simp [collapse, words, split, shown, spaceBefore]
  | cons d rest =>
    cases blank : isBlank d with
    | true =>
      have own : words (c :: d :: rest) = [c] :: words rest := by
        simp [words, split, shown, blank]
      rw [collapse, own, intercalate_cons_word, collapse_cons_blank blank]
      by_cases nothing : rest.all isBlank = true
      · have none : words rest = [] := words_eq_nil_iff.mpr nothing
        simp [spaceBefore, blank, nothing, none, collapse]
      · have some_word : words rest ≠ [] := mt words_eq_nil_iff.mp nothing
        simp [spaceBefore, blank, nothing, some_word, collapse]
    | false =>
      have unspaced : spaceBefore isBlank ' ' (d :: rest) = [] := by simp [spaceBefore, blank]
      rw [unspaced, List.nil_append]
      unfold collapse words
      cases pieces : split isBlank rest with
      | nil => simp [split, shown, blank, pieces]
      | cons piece others => simp [split, shown, blank, pieces, intercalate_cons_word]

theorem collapse_eq_squeeze (cs : List Char) : collapse cs = squeeze isBlank ' ' cs := by
  induction cs with
  | nil => rfl
  | cons c rest ih =>
    cases blank : isBlank c with
    | true => rw [collapse_cons_blank blank, squeeze_cons_gap blank, ih]
    | false => rw [collapse_cons_shown blank, squeeze_cons_shown blank, ih]

end Chars

end Text

namespace Selector

open Text.Chars

def isQuote (c : Char) : Bool := c = '"' || c = '\''

theorem isBlank_of_isQuote {c : Char} (quote : isQuote c = true) : Text.isBlank c = false := by
  rcases (by simpa [isQuote] using quote : c = '"' ∨ c = '\'') with rfl | rfl <;> decide

/-- What a key is made of: a character outside of strings, or a string with its quotes. -/
inductive Fragment where
  | plain (c : Char)
  | string (text : List Char)
  deriving DecidableEq, Repr

namespace Fragment

def text : Fragment → List Char
  | plain c => [c]
  | string text => text

def isGap : Fragment → Bool
  | plain c => Text.isBlank c
  | string _ => false

def mapString (change : List Char → List Char) : Fragment → Fragment
  | plain c => plain c
  | string text => string (change text)

def textOf (fragments : List Fragment) : List Char := fragments.flatMap text

/-- The fragments of a key, behind the quote and the text of a string if one is open. A backslash
takes the character behind it along, in a string and outside of strings. -/
def readFrom? : (inside : Option (Char × List Char)) → List Char → Option (List Fragment)
  | none, [] => some []
  | some _, [] => none
  | none, '\\' :: c :: rest => (readFrom? none rest).map (plain '\\' :: plain c :: ·)
  | none, c :: rest =>
    if isQuote c then readFrom? (some (c, [])) rest
    else (readFrom? none rest).map (plain c :: ·)
  | some (quote, inner), '\\' :: c :: rest => readFrom? (some (quote, inner ++ ['\\', c])) rest
  | some (quote, inner), c :: rest =>
    if c = quote then (readFrom? none rest).map (string (quote :: (inner ++ [quote])) :: ·)
    else readFrom? (some (quote, inner ++ [c])) rest

/-- The fragments of a key whose strings are all closed. -/
def read? (key : List Char) : Option (List Fragment) := readFrom? none key

/-- A text that begins and ends with a quote. -/
def IsQuoted (text : List Char) : Prop :=
  ∃ quote inner, isQuote quote = true ∧ text = quote :: (inner ++ [quote])

/-- All strings begin and end with quotes. -/
def AreQuoted (fragments : List Fragment) : Prop := ∀ text, string text ∈ fragments → IsQuoted text

@[simp] theorem textOf_nil : textOf [] = [] := rfl

@[simp] theorem textOf_cons (fragment : Fragment) (rest : List Fragment) :
    textOf (fragment :: rest) = fragment.text ++ textOf rest := rfl

@[simp] theorem textOf_append (front back : List Fragment) :
    textOf (front ++ back) = textOf front ++ textOf back := List.flatMap_append ..

theorem areQuoted_cons {fragment : Fragment} {rest : List Fragment} :
    AreQuoted (fragment :: rest) ↔ AreQuoted [fragment] ∧ AreQuoted rest := by
  simp [AreQuoted, or_imp, forall_and]

theorem areQuoted_nil : AreQuoted [] := by simp [AreQuoted]

theorem areQuoted_plain {c : Char} : AreQuoted [plain c] := by simp [AreQuoted]

theorem areQuoted_string {text : List Char} : AreQuoted [string text] ↔ IsQuoted text := by
  simp [AreQuoted]

theorem AreQuoted.append {front back : List Fragment} (first : AreQuoted front)
    (last : AreQuoted back) :
    AreQuoted (front ++ back) :=
  fun text member => (List.mem_append.mp member).elim (first text) (last text)

/-- What was read of a string that is open. -/
def openText : Option (Char × List Char) → List Char
  | none => []
  | some (quote, inner) => quote :: inner

theorem of_readFrom? {inside : Option (Char × List Char)} {key : List Char}
    {fragments : List Fragment}
    (opened : ∀ quote inner, inside = some (quote, inner) → isQuote quote = true)
    (found : readFrom? inside key = some fragments) :
    textOf fragments = openText inside ++ key ∧ AreQuoted fragments := by
  have closed (quote : Char) (inner : List Char) : none = some (quote, inner) →
      isQuote quote = true := by
    simp
  fun_induction readFrom? inside key generalizing fragments with
  | case1 =>
    obtain rfl := Option.some.inj found
    exact ⟨rfl, areQuoted_nil⟩
  | case2 => cases found
  | case3 c rest ih =>
    obtain ⟨others, below, rfl⟩ := Option.map_eq_some_iff.mp found
    obtain ⟨spelled, quoted⟩ := ih closed below
    exact ⟨by simp [spelled, openText, text],
      areQuoted_plain.append (areQuoted_plain.append quoted)⟩
  | case4 c rest _ quote ih =>
    obtain ⟨spelled, quoted⟩ := ih (by simpa using quote) found
    exact ⟨by simp [spelled, openText], quoted⟩
  | case5 c rest _ unquoted ih =>
    obtain ⟨others, below, rfl⟩ := Option.map_eq_some_iff.mp found
    obtain ⟨spelled, quoted⟩ := ih closed below
    exact ⟨by simp [spelled, openText, text], areQuoted_plain.append quoted⟩
  | case6 quote inner c rest ih =>
    have own := opened quote inner rfl
    obtain ⟨spelled, quoted⟩ := ih (by simpa using own) found
    exact ⟨by simp [spelled, openText], quoted⟩
  | case7 inner c rest _ ih =>
    have own := opened c inner rfl
    obtain ⟨others, below, rfl⟩ := Option.map_eq_some_iff.mp found
    obtain ⟨spelled, quoted⟩ := ih closed below
    have string : AreQuoted [string (c :: (inner ++ [c]))] :=
      areQuoted_string.mpr ⟨c, inner, own, rfl⟩
    exact ⟨by simp [spelled, openText, text], string.append quoted⟩
  | case8 quote inner c rest _ other ih =>
    have own := opened quote inner rfl
    obtain ⟨spelled, quoted⟩ := ih (by simpa using own) found
    exact ⟨by simp [spelled, openText], quoted⟩

theorem of_read? {key : List Char} {fragments : List Fragment}
    (found : read? key = some fragments) :
    textOf fragments = key ∧ AreQuoted fragments :=
  of_readFrom? (by simp) found

/-- Fragments without the blanks at both ends, and with one space for each run of plain blanks. -/
def spaced (fragments : List Fragment) : List Fragment := Text.squeeze isGap (plain ' ') fragments

theorem all_isBlank_textOf {fragments : List Fragment} (quoted : AreQuoted fragments) :
    (textOf fragments).all Text.isBlank = fragments.all isGap := by
  induction fragments with
  | nil => rfl
  | cons fragment rest ih =>
    obtain ⟨own, others⟩ := areQuoted_cons.mp quoted
    rw [textOf_cons, List.all_append, ih others, List.all_cons]
    congr 1
    cases fragment with
    | plain c => simp [text, isGap]
    | string content =>
      obtain ⟨quote, inner, mark, rfl⟩ := areQuoted_string.mp own
      simp [text, isGap, isBlank_of_isQuote mark]

theorem textOf_spaceBefore {fragments : List Fragment} (quoted : AreQuoted fragments) :
    textOf (Text.spaceBefore isGap (plain ' ') fragments) =
      Text.spaceBefore Text.isBlank ' ' (textOf fragments) := by
  have head : (textOf fragments).head?.any Text.isBlank = fragments.head?.any isGap := by
    cases fragments with
    | nil => rfl
    | cons fragment rest =>
      cases fragment with
      | plain c => rfl
      | string content =>
        obtain ⟨quote, inner, mark, rfl⟩ := areQuoted_string.mp (areQuoted_cons.mp quoted).1
        exact isBlank_of_isQuote mark
  unfold Text.spaceBefore
  rw [head, all_isBlank_textOf quoted]
  split <;> rfl

theorem map_spaceBefore (change : List Char → List Char) (fragments : List Fragment) :
    (Text.spaceBefore isGap (plain ' ') fragments).map (mapString change) =
      Text.spaceBefore isGap (plain ' ') fragments := by
  unfold Text.spaceBefore
  split <;> rfl

/-- Collapsing the spacing of a text collapses each of its strings on its own. -/
theorem collapse_textOf {fragments : List Fragment} (quoted : AreQuoted fragments) :
    collapse (textOf fragments) = textOf ((spaced fragments).map (mapString collapse)) := by
  induction fragments with
  | nil => rfl
  | cons fragment rest ih =>
    obtain ⟨own, others⟩ := areQuoted_cons.mp quoted
    have behind :
        textOf ((Text.spaceBefore isGap (plain ' ') rest ++ spaced rest).map (mapString collapse)) =
        Text.spaceBefore Text.isBlank ' ' (textOf rest) ++ collapse (textOf rest) := by
      rw [List.map_append, textOf_append, map_spaceBefore, textOf_spaceBefore others, ih others]
    cases fragment with
    | plain c =>
      change collapse (c :: textOf rest) = _
      cases blank : Text.isBlank c with
      | true =>
        have gap : isGap (plain c) = true := blank
        rw [collapse_cons_blank blank, ih others, spaced, spaced, Text.squeeze_cons_gap gap]
      | false =>
        have shown : isGap (plain c) = false := blank
        rw [collapse_cons_shown blank, ← behind, spaced, spaced, Text.squeeze_cons_shown shown]
        rfl
    | string content =>
      obtain ⟨quote, inner, mark, rfl⟩ := areQuoted_string.mp own
      have shown : isGap (string (quote :: (inner ++ [quote]))) = false := rfl
      have spelled : textOf (string (quote :: (inner ++ [quote])) :: rest) =
          (quote :: inner) ++ quote :: textOf rest := by
        simp [text]
      rw [spelled, collapse_eq_squeeze, Text.squeeze_append (isBlank_of_isQuote mark),
        ← collapse_eq_squeeze, ← collapse_eq_squeeze, ← behind, spaced, spaced,
        Text.squeeze_cons_shown shown]
      rfl

theorem mapString_mapString (first second : List Char → List Char) (fragment : Fragment) :
    (fragment.mapString first).mapString second = fragment.mapString (second ∘ first) := by
  cases fragment <;> rfl

theorem spaced_map (change : List Char → List Char) (fragments : List Fragment) :
    spaced (fragments.map (mapString change)) = (spaced fragments).map (mapString change) := by
  apply Text.squeeze_map rfl
  rintro (c | content) <;> rfl

theorem ink_textOf_spaced (fragments : List Fragment) :
    ink (textOf (spaced fragments)) = ink (textOf fragments) := by
  have unspaced (items : List Fragment) :
      ink (textOf (Text.spaceBefore isGap (plain ' ') items)) = [] := by
    unfold Text.spaceBefore
    split <;> decide
  induction fragments with
  | nil => rfl
  | cons fragment rest ih =>
    rw [spaced] at ih ⊢
    rw [textOf_cons, ink_append, ← ih]
    cases gap : isGap fragment with
    | false =>
      rw [Text.squeeze_cons_shown gap, textOf_cons, textOf_append, ink_append, ink_append, unspaced,
        List.nil_append]
    | true =>
      rw [Text.squeeze_cons_gap gap]
      cases fragment with
      | plain c =>
        have blank : Text.isBlank c = true := gap
        simp [text, ink, blank]
      | string content => cases gap

theorem string_mem_spaced {content : List Char} {fragments : List Fragment} :
    string content ∈ spaced fragments ↔ string content ∈ fragments := by
  exact Text.mem_squeeze rfl (by simp)

/-- A text whose last character is a quote. -/
def EndsQuoted (text : List Char) : Prop :=
  ∃ front quote, isQuote quote = true ∧ text = front ++ [quote]

theorem IsQuoted.endsQuoted {text : List Char} (quoted : IsQuoted text) : EndsQuoted text := by
  obtain ⟨quote, inner, mark, rfl⟩ := quoted
  exact ⟨quote :: inner, quote, mark, rfl⟩

theorem EndsQuoted.append {back : List Char} (ends : EndsQuoted back) (front : List Char) :
    EndsQuoted (front ++ back) := by
  obtain ⟨inner, quote, mark, rfl⟩ := ends
  exact ⟨front ++ inner, quote, mark, (List.append_assoc ..).symm⟩

/-- How many quotes a text has. -/
def quotes (text : List Char) : Nat := text.countP isQuote

@[simp] theorem quotes_append (front back : List Char) :
    quotes (front ++ back) = quotes front + quotes back :=
  List.countP_append

theorem EndsQuoted.quotes_pos {text : List Char} (ends : EndsQuoted text) : 0 < quotes text := by
  obtain ⟨front, quote, mark, rfl⟩ := ends
  rw [quotes_append]
  simp [quotes, mark]

/-- What follows the same number of quotes follows the same quote. -/
theorem EndsQuoted.append_inj {first second back other : List Char} (first_ends : EndsQuoted first)
    (second_ends : EndsQuoted second) (counted : quotes first = quotes second)
    (same : first ++ back = second ++ other) : first = second ∧ back = other := by
  have nothing {front more : List Char} (ends : EndsQuoted (front ++ more))
      (level : quotes (front ++ more) = quotes front) : more = [] := by
    by_contra some_char
    obtain ⟨more, c, rfl⟩ := List.eq_nil_or_concat' more |>.resolve_left some_char
    obtain ⟨inner, quote, mark, split⟩ := ends
    rw [← List.append_assoc] at split
    obtain ⟨-, last⟩ := List.append_inj' split rfl
    obtain rfl := List.singleton_inj.mp last
    have more_pos := EndsQuoted.quotes_pos ⟨more, c, mark, rfl⟩
    rw [quotes_append] at level
    omega
  rcases List.append_eq_append_iff.mp same with ⟨more, rfl, rfl⟩ | ⟨more, rfl, rfl⟩
  · obtain rfl := nothing second_ends counted.symm
    simp
  · obtain rfl := nothing first_ends counted
    simp

/-- A text shows each of its strings that is changed, if its quotes are kept. -/
theorem textOf_map_eq_iff {change : List Char → List Char} {fragments : List Fragment}
    (quoted : AreQuoted fragments) (keeps : ∀ content, string content ∈ fragments →
      EndsQuoted (change content) ∧ quotes (change content) = quotes content) :
    textOf (fragments.map (mapString change)) = textOf fragments ↔
      ∀ content, string content ∈ fragments → change content = content := by
  induction fragments with
  | nil => simp
  | cons fragment rest ih =>
    obtain ⟨own, others⟩ := areQuoted_cons.mp quoted
    have below := ih others fun content member => keeps content (List.mem_cons_of_mem _ member)
    cases fragment with
    | plain c => simpa [mapString] using below
    | string content =>
      obtain ⟨ends, counted⟩ := keeps content List.mem_cons_self
      have kept := (areQuoted_string.mp own).endsQuoted
      simp only [List.map_cons, textOf_cons, mapString, text, List.mem_cons, string.injEq]
      constructor
      · intro same
        obtain ⟨here, behind⟩ := ends.append_inj kept counted same
        rintro other (rfl | member)
        · exact here
        · exact below.mp behind other member
      · intro unchanged
        rw [unchanged content (.inl rfl),
          below.mpr fun other member => unchanged other (.inr member)]

end Fragment

end Selector

end AtomicCss
