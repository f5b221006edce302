import AtomicCss.Glob.Item

/-!
Reading globs.

A backslash makes the next character a literal, brackets hold a class of characters, and braces hold
alternatives between commas, which may nest. Two stars between slashes, or at an end, stand for
folders. A glob is malformed if it ends in a backslash, leaves braces or brackets open, closes
braces that were not opened, or holds a range from a later to an earlier character; a dialect may
take an open bracket that is never closed as a literal.
-/

namespace AtomicCss.Glob

/-- How globs are read and what their wildcards match. -/
structure Dialect where
  /-- Whether `?` and `*` match slashes. -/
  crossesFolders : Bool
  /-- Whether a bracket that is never closed is a literal. -/
  allowsOpenBracket : Bool

def Dialect.commandLine : Dialect := ⟨true, false⟩

def Dialect.ignoreFile : Dialect := ⟨false, true⟩

/-- A group in braces that is open. -/
structure OpenGroup where
  /-- The branches before the current one, latest first. -/
  finished : List (List Item)
  /-- The items before the group, latest first. -/
  outside : List Item

/-- What has been read of a glob. -/
structure Reading where
  /-- The items of the current branch, latest first. -/
  branch : List Item
  /-- The groups that are open, innermost first. -/
  groups : List OpenGroup
  /-- The character that came before. -/
  last : Option Char
  /-- Whether a bracket was found that is never closed. -/
  openBracket : Bool

/-- What follows an opening bracket. -/
inductive ClassReading where
  | unclosed
  | reversed
  | closed (ranges : List (Char × Char)) (rest : List Char)

/-- Reads a class up to its closing bracket; `ranges` are those so far, latest first, and `inRange`
tells that a dash came last. The first character stands for itself, whatever it is, and so does a
dash at the end. -/
def readClass (ranges : List (Char × Char)) (inRange : Bool) : List Char → ClassReading
  | [] => .unclosed
  | c :: rest =>
    match ranges with
    | [] => readClass [(c, c)] false rest
    | (first, last) :: earlier =>
      if c = ']' then
        .closed (if inRange then ('-', '-') :: (first, last) :: earlier
          else (first, last) :: earlier) rest
      else if inRange then
        if c < first then .reversed else readClass ((first, c) :: earlier) false rest
      else if c = '-' then readClass ((first, last) :: earlier) true rest
      else readClass ((c, c) :: (first, last) :: earlier) false rest

theorem length_of_readClass {ranges found : List (Char × Char)} {inRange : Bool}
    {cs rest : List Char} (closed : readClass ranges inRange cs = .closed found rest) :
    rest.length ≤ cs.length := by
  fun_induction readClass ranges inRange cs
  case case1 => cases closed
  case case2 ih => exact Nat.le_succ_of_le (ih closed)
  case case3 => cases closed; exact Nat.le_succ _
  case case4 => cases closed
  case case5 ih => exact Nat.le_succ_of_le (ih closed)
  case case6 ih => exact Nat.le_succ_of_le (ih closed)
  case case7 ih => exact Nat.le_succ_of_le (ih closed)

def readNegation : List Char → Bool × List Char
  | '!' :: rest | '^' :: rest => (true, rest)
  | rest => (false, rest)

theorem length_readNegation (cs : List Char) : (readNegation cs).2.length ≤ cs.length := by
  fun_cases readNegation cs <;> simp

namespace Reading

def start : Reading := ⟨[], [], none, false⟩

def push (reading : Reading) (item : Item) (last : Char) : Reading :=
  { reading with branch := item :: reading.branch, last := some last }

def inGroup (reading : Reading) : Bool := !reading.groups.isEmpty

def openGroup (reading : Reading) : Reading :=
  { reading with
    branch := [], groups := ⟨[], reading.branch⟩ :: reading.groups, last := some '\x7b' }

def nextBranch (reading : Reading) : Reading :=
  match reading.groups with
  | [] => reading.push (.literal ',') ','
  | group :: groups =>
    { reading with
      branch := []
      groups := { group with finished := reading.branch.reverse :: group.finished } :: groups
      last := some ',' }

def closeGroup? (reading : Reading) : Option Reading :=
  match reading.groups with
  | [] => none
  | group :: groups =>
    let branches := (reading.branch.reverse :: group.finished).reverse
    some { reading with branch := .group branches :: group.outside, groups, last := some '\x7d' }

/-- Two stars that stand for no folders. -/
def pushRuns (reading : Reading) : Reading := (reading.push .run '*').push .run '*'

/-- Puts two stars for folders in place of the slash before them; stars that follow such stars add
nothing. -/
def pushFolders (reading : Reading) (item : Item) (last : Char) : Reading :=
  let branch := match reading.branch with
    | .leading :: earlier => .leading :: earlier
    | .trailing :: earlier => .trailing :: earlier
    | _ :: earlier => item :: earlier
    | [] => [item]
  { reading with branch, last := some last }

/-- Whether two stars stand at the start of a component: after a slash, or first in a branch. -/
def startsComponent (reading : Reading) : Bool :=
  reading.last == some '/' ||
    (reading.inGroup && (reading.last == some ',' || reading.last == some '\x7b'))

/-- Reads two stars, given what follows them; a slash that belongs to them is read too. -/
def readStars (reading : Reading) (rest : List Char) : Reading × List Char :=
  if reading.branch.isEmpty then
    match rest with
    | [] => (reading.push .leading '*', [])
    | '/' :: rest => (reading.push .leading '/', rest)
    | rest => (reading.pushRuns, rest)
  else if !reading.startsComponent then (reading.pushRuns, rest)
  else match rest with
    | [] => (reading.pushFolders .trailing '*', [])
    | '/' :: rest => (reading.pushFolders .between '/', rest)
    | c :: rest =>
      if reading.inGroup && (c == ',' || c == '\x7d') then
        (reading.pushFolders .trailing '*', c :: rest)
      else (reading.pushRuns, c :: rest)

theorem length_readStars (reading : Reading) (rest : List Char) :
    (reading.readStars rest).2.length ≤ rest.length := by
  unfold readStars
  repeat' split
  all_goals simp

def readAll? (dialect : Dialect) (reading : Reading) (cs : List Char) : Option Reading :=
  match cs with
  | [] => some reading
  | '?' :: rest => readAll? dialect (reading.push .one '?') rest
  | '*' :: '*' :: rest =>
    readAll? dialect (reading.readStars rest).1 (reading.readStars rest).2
  | '*' :: rest => readAll? dialect (reading.push .run '*') rest
  | '\\' :: [] => none
  | '\\' :: c :: rest => readAll? dialect (reading.push (.literal c) c) rest
  | '\x7b' :: rest => readAll? dialect reading.openGroup rest
  | '\x7d' :: rest =>
    match reading.closeGroup? with
    | none => none
    | some reading => readAll? dialect reading rest
  | ',' :: rest => readAll? dialect reading.nextBranch rest
  | '[' :: rest =>
    if reading.openBracket then readAll? dialect (reading.push (.literal '[') '[') rest
    else
      match _found : readClass [] false (readNegation rest).2 with
      | .closed ranges after =>
        readAll? dialect (reading.push (.oneOf (readNegation rest).1 ranges.reverse) ']') after
      | .reversed => none
      | .unclosed =>
        if dialect.allowsOpenBracket then
          readAll? dialect { reading.push (.literal '[') '[' with openBracket := true } rest
        else none
  | c :: rest => readAll? dialect (reading.push (.literal c) c) rest
termination_by cs.length
decreasing_by
  all_goals first
    | (simp only [List.length_cons]; omega)
    | skip
  · have := length_readStars reading rest
    simp only [List.length_cons]; omega
  · have := length_of_readClass _found
    have := length_readNegation rest
    simp only [List.length_cons]; omega

def items? (reading : Reading) : Option (List Item) :=
  if reading.inGroup then none else some reading.branch.reverse

end Reading

end AtomicCss.Glob
