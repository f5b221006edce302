import AtomicCss.Command.Basic
import AtomicCss.Numeric.Numeral

/-!
Commands from the arguments of a command line.

Flags and inputs may come in any order; what follows a flag that takes a value is its value, even if
it looks like a flag.
-/

namespace AtomicCss.Command

/-- The flags of builds, in all spellings. -/
inductive Flag where
  | output
  | classes
  | config
  | ignore
  | minify
  | poll
  | pollInterval
  deriving DecidableEq, Repr

namespace Flag

def ofText? : String → Option Flag
  | "--out" | "--output" | "-o" => some output
  | "--classes" => some classes
  | "--config" | "-c" => some config
  | "--ignore" | "-I" => some ignore
  | "--minify" => some minify
  | "--poll" => some poll
  | "--poll-interval" => some pollInterval
  | _ => none

def text : Flag → String
  | output => "--output"
  | classes => "--classes"
  | config => "--config"
  | ignore => "--ignore"
  | minify => "--minify"
  | poll => "--poll"
  | pollInterval => "--poll-interval"

def takesValue : Flag → Bool
  | output | classes | config | ignore | pollInterval => true
  | minify | poll => false

def watchOnly : Flag → Bool
  | poll | pollInterval => true
  | _ => false

end Flag

/-- What the arguments of a build say. -/
structure BuildArguments where
  inputs : List String
  options : BuildOptions
  poll : Bool
  interval : Nat
  deriving DecidableEq, Repr

/-- The interval of polling, in milliseconds, when none is given. -/
def defaultInterval : Nat := 500

/-- Reads an unsigned number of 64 bits, which may have a plus sign. -/
def interval? (text : String) : Option Nat :=
  let digits := match text.toList with
    | '+' :: digits => digits
    | digits => digits
  if digits.isEmpty || !digits.all Char.isDigit then none
  else
    let value := Numeric.natOfDigits digits
    if value < UInt64.size then some value else none

namespace BuildArguments

def start : BuildArguments := ⟨[], .initial, false, defaultInterval⟩

def addInput (arguments : BuildArguments) (input : String) : BuildArguments :=
  { arguments with inputs := arguments.inputs ++ [input] }

def addSwitch (arguments : BuildArguments) : Flag → BuildArguments
  | .minify => { arguments with options := { arguments.options with minify := true } }
  | .poll => { arguments with poll := true }
  | _ => arguments

def addValue (arguments : BuildArguments) (flag : Flag) (value : String) :
    Except CommandError BuildArguments :=
  let options := arguments.options
  match flag with
  | .output => .ok { arguments with options := { options with output := some value } }
  | .classes => .ok { arguments with options := { options with classes := some value } }
  | .config => .ok { arguments with options := { options with config := some value } }
  | .ignore =>
    .ok { arguments with options := { options with ignored := options.ignored ++ [value] } }
  | .pollInterval => match interval? value with
    | some interval => .ok { arguments with poll := true, interval }
    | none => .error (.badInterval flag.text value)
  | .minify | .poll => .ok arguments

def read (command : String) (watches : Bool) (arguments : BuildArguments) :
    List String → Except CommandError BuildArguments
  | [] => .ok arguments
  | argument :: rest =>
    match Flag.ofText? argument with
    | none => read command watches (arguments.addInput argument) rest
    | some flag =>
      if flag.watchOnly && !watches then .error .pollWithoutWatch
      else if !flag.takesValue then read command watches (arguments.addSwitch flag) rest
      else match rest with
        | [] => .error (.missingValue command flag.text)
        | value :: rest =>
          match arguments.addValue flag value with
          | .ok arguments => read command watches arguments rest
          | .error error => .error error

def parse (command : String) (watches : Bool) (arguments : List String) :
    Except CommandError BuildArguments := do
  let read ← read command watches start arguments
  if read.inputs.isEmpty then throw (.noInputs command)
  return read

end BuildArguments

def readScan (inputs ignored : List String) :
    List String → Except CommandError (List String × List String)
  | [] => .ok (inputs, ignored)
  | argument :: rest =>
    if argument = "--ignore" ∨ argument = "-i" ∨ argument = "-I" then
      match rest with
      | [] => .error (.missingValue "scan" Flag.ignore.text)
      | value :: rest => readScan inputs (ignored ++ [value]) rest
    else readScan (inputs ++ [argument]) ignored rest

def parse : List String → Except CommandError Command
  | [] => .ok .help
  | "scan" :: rest => do
    let (inputs, ignored) ← readScan [] [] rest
    if inputs.isEmpty then throw (.noInputs "scan")
    return .scan inputs ignored
  | "build" :: rest => do
    let read ← BuildArguments.parse "build" false rest
    return .build read.inputs read.options
  | "watch" :: rest => do
    let read ← BuildArguments.parse "watch" true rest
    return .watch read.inputs read.options read.poll read.interval
  | "-h" :: _ | "--help" :: _ | "help" :: _ => .ok .help
  | name :: _ => .error (.unknownCommand name)

end AtomicCss.Command
