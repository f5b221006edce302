import AtomicCss.Numeric.Numeral

/-!
Dates and times in TOML: their grammar and their canonical text, and the looser grammar of dates and
times that stand in strings.
-/

namespace AtomicCss.Toml.Moment

open Numeric (isDigit natOfDigits)

def digits? (count : Nat) (cs : List Char) : Option (Nat × List Char) :=
  let read := cs.take count
  if read.length = count ∧ read.all isDigit then some (natOfDigits read, cs.drop count) else none

def expect? (expected : Char) : List Char → Option (List Char)
  | c :: cs => if c = expected then some cs else none
  | [] => none

def padded (width value : Nat) : String :=
  let digits := Nat.toDigits 10 value
  String.ofList (List.replicate (width - digits.length) '0' ++ digits)

def isLeap (year : Nat) : Bool := year % 4 == 0 && (year % 100 != 0 || year % 400 == 0)

def daysIn (year month : Nat) : Nat :=
  if month = 2 then if isLeap year then 29 else 28
  else if month ∈ [4, 6, 9, 11] then 30
  else 31

def date? (cs : List Char) : Option (String × List Char) := do
  let (year, cs) ← digits? 4 cs
  let (month, cs) ← digits? 2 (← expect? '-' cs)
  let (day, cs) ← digits? 2 (← expect? '-' cs)
  if 1 ≤ month ∧ month ≤ 12 ∧ 1 ≤ day ∧ day ≤ daysIn year month then
    some (padded 4 year ++ "-" ++ padded 2 month ++ "-" ++ padded 2 day, cs)
  else none

def fractionText (digits : List Char) : String :=
  match ((digits.take 9).reverse.dropWhile (· == '0')).reverse with
  | [] => ""
  | kept => "." ++ String.ofList kept

def lastHour : Nat := 23

def time? (limit : Nat) (cs : List Char) : Option (String × List Char) := do
  let (hour, cs) ← digits? 2 cs
  let (minute, cs) ← digits? 2 (← expect? ':' cs)
  let (second, cs) ← digits? 2 (← expect? ':' cs)
  if limit < hour ∨ 59 < minute ∨ 60 < second then none
  else
    let clock := padded 2 hour ++ ":" ++ padded 2 minute ++ ":" ++ padded 2 second
    match cs with
    | '.' :: rest => match Numeric.spanDigits rest with
      | ([], _) => none
      | (fraction, rest) => some (clock ++ fractionText fraction, rest)
    | rest => some (clock, rest)

def offset? : List Char → Option (String × List Char)
  | 'Z' :: cs | 'z' :: cs => some ("Z", cs)
  | sign :: cs => do
    if sign ≠ '+' ∧ sign ≠ '-' then none
    else
      let (hours, cs) ← digits? 2 cs
      let (minutes, cs) ← digits? 2 (← expect? ':' cs)
      if lastHour < hours ∨ 59 < minutes then none
      else
        let sign := if hours = 0 ∧ minutes = 0 then "+" else String.ofList [sign]
        some (sign ++ padded 2 hours ++ ":" ++ padded 2 minutes, cs)
  | [] => none

def isDelimiter (c : Char) : Bool := c == 'T' || c == 't' || c == ' '

/-- The canonical text of a whole text that is a date, a time, or a date with a time. -/
def ofChars? (cs : List Char) : Option String :=
  match date? cs with
  | some (date, []) => some date
  | some (date, delimiter :: rest) =>
    if isDelimiter delimiter then match time? lastHour rest with
      | some (time, []) => some (date ++ "T" ++ time)
      | some (time, rest) => match offset? rest with
        | some (offset, []) => some (date ++ "T" ++ time ++ offset)
        | _ => none
      | none => none
    else none
  | none => match time? lastHour cs with
    | some (time, []) => some time
    | _ => none

/-- The last hour that a time in a string may have, and the longest distance from universal time
there. -/
def looseHours : Nat := 24

def isLooseOffset : List Char → Bool
  | [] | ['Z'] | ['z'] => true
  | sign :: cs => (sign == '+' || sign == '-') && (do
      let (hours, cs) ← digits? 2 cs
      let (minutes, cs) ← digits? 2 (← expect? ':' cs)
      return 60 * hours + minutes ≤ 60 * looseHours && cs.isEmpty) == some true

/-- Whether a string is a date, a time or both; a date may have an offset without a time. -/
def isLoose (cs : List Char) : Bool :=
  match date? cs with
  | some (_, delimiter :: rest) =>
    if isDelimiter delimiter then (time? looseHours rest).any fun (_, rest) => isLooseOffset rest
    else isLooseOffset (delimiter :: rest)
  | some (_, []) => true
  | none => (time? looseHours cs).any fun (_, rest) => rest.isEmpty

end AtomicCss.Toml.Moment
