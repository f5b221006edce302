import AtomicCss.Proofs.Command.Words

/-!
Command lines and the commands that they mean.

A line is a verb and its words. The arguments of a command are such words up to where they stop, and
the readers take one word after another off them, so that a value is never looked at as a flag. From
this every line is read as the command that it means, and nothing but lines is read.
-/

namespace AtomicCss.Command

/-- Commands that have no inputs are refused. -/
theorem checked_eq_ok {Found : Type} {inputs : List String} {error : CommandError}
    {own found : Found} :
    (do if inputs.isEmpty then throw error
        return own : Except CommandError Found) = .ok found ↔ inputs ≠ [] ∧ own = found := by
  cases inputs with
  | nil => simp [throw, throwThe, MonadExceptOf.throw, bind, Except.bind]
  | cons input inputs => simp [pure, Except.pure]

/-- Where the words of a line stop: at its end, at a flag that has no value, or, in a build, at a
flag of watches. -/
inductive Verb.Stops (verb : Verb) : List String → Prop where
  | done : Stops verb []
  | unfinished {flag : Flag} {spelling : String} :
      flag.takesValue = true → spelling ∈ verb.spellings flag → Stops verb [spelling]
  | foreign {flag : Flag} {spelling : String} {rest : List String} :
      verb = .build → flag.watchOnly = true → spelling ∈ flag.spellings →
        Stops verb (spelling :: rest)

/-- Arguments are words up to where they stop. -/
theorem exists_words (verb : Verb) :
    ∀ arguments : List String, ∃ (words : List Word) (rest : List String),
      (∀ word ∈ words, word.IsOf verb) ∧ arguments = words.flatMap Word.texts ++ rest ∧
        verb.Stops rest
  | [] => ⟨[], [], by simp, rfl, .done⟩
  | argument :: rest => by
    have after (word : Word) (own : word.IsOf verb) (back : List String)
        (shorter : back.length ≤ rest.length)
        (starts : argument :: rest = word.texts ++ back) :
          ∃ (words : List Word) (last : List String),
          (∀ word ∈ words, word.IsOf verb) ∧ argument :: rest = words.flatMap Word.texts ++ last ∧
          verb.Stops last := by
      obtain ⟨words, last, each, split, stops⟩ := exists_words verb back
      refine ⟨word :: words, last, List.forall_mem_cons.mpr ⟨own, each⟩, ?_, stops⟩
      rw [starts, split, List.flatMap_cons, List.append_assoc]
    by_cases reserved : verb.Reserves argument
    · rcases Verb.exists_flag reserved with ⟨flag, spelled⟩ | ⟨builds, flag, only, spelled⟩
      · cases takes : flag.takesValue with
        | false => exact after (.switch flag argument) ⟨takes, spelled⟩ rest (Nat.le_refl _) rfl
        | true =>
          cases rest with
          | nil => exact ⟨[], [argument], by simp, rfl, .unfinished takes spelled⟩
          | cons value rest =>
            exact after (.setting flag argument value) ⟨takes, spelled⟩ rest (Nat.le_succ _) rfl
      · exact ⟨[], argument :: rest, by simp, rfl, .foreign builds only spelled⟩
    · exact after (.input argument) reserved rest (Nat.le_refl _) rfl
  termination_by arguments => arguments.length

theorem readScan_words {words : List Word} (each : ∀ word ∈ words, word.IsOf .scan)
    (inputs ignored rest : List String) :
    readScan inputs ignored (words.flatMap Word.texts ++ rest) =
      readScan (inputs ++ Word.inputs words) (ignored ++ Word.values .ignore words) rest := by
  induction words generalizing inputs ignored with
  | nil => simp [Word.inputs, Word.values]
  | cons word words ih =>
    obtain ⟨own, others⟩ := List.forall_mem_cons.mp each
    rw [List.flatMap_cons, List.append_assoc]
    cases word with
    | input text =>
      have unreserved : ¬ (text = "--ignore" ∨ text = "-i" ∨ text = "-I") := by
        simpa [Word.IsOf, Verb.Reserves, Verb.spellings] using own
      simp only [Word.texts, List.cons_append, List.nil_append]
      rw [readScan.eq_def]
      simp [unreserved, ih others, Word.inputs, Word.values]
    | switch flag spelling =>
      obtain rfl := Verb.mem_scan_spellings own.2
      cases own.1
    | setting flag spelling value =>
      obtain rfl := Verb.mem_scan_spellings own.2
      have spelled : spelling = "--ignore" ∨ spelling = "-i" ∨ spelling = "-I" := by
        simpa [Verb.spellings] using own.2
      simp [Word.texts, readScan, spelled, ih others, Word.inputs, Word.values]

namespace BuildArguments

open Word (values uses)

/-- The arguments after a word. -/
def addWord (arguments : BuildArguments) : Word → Except CommandError BuildArguments
  | .input text => .ok (arguments.addInput text)
  | .switch flag _ => .ok (arguments.addSwitch flag)
  | .setting flag _ value => arguments.addValue flag value

/-- What words say whose intervals are these. An interval turns polling on. -/
def ofWords (words : List Word) (intervals : List Nat) : BuildArguments where
  inputs := Word.inputs words
  options := Word.options words
  poll := uses .poll words || intervals ≠ []
  interval := intervals.getLast?.getD defaultInterval

theorem addValue_interval_eq_ok {arguments next : BuildArguments} {value : String} :
    arguments.addValue .pollInterval value = .ok next ↔
      ∃ interval, IsNumeral value interval ∧ next = { arguments with poll := true, interval } := by
  simp only [addValue, ← interval?_eq_some]
  cases interval? value <;> simp [eq_comm]

theorem addWord_eq_ok {words : List Word} {intervals : List Nat} {word : Word}
    {next : BuildArguments} :
    (ofWords words intervals).addWord word = .ok next ↔
      ∃ more, List.Forall₂ IsNumeral (values .pollInterval [word]) more ∧
        next = ofWords (words ++ [word]) (intervals ++ more) := by
  cases word with
  | input text =>
    simp [addWord, addInput, ofWords, Word.options, eq_comm]
  | switch flag spelling =>
    cases flag <;> simp [addWord, addSwitch, ofWords, Word.options, eq_comm]
  | setting flag spelling value =>
    cases flag
    case pollInterval =>
      rw [addWord, addValue_interval_eq_ok]
      simp [List.forall₂_cons_left_iff, ofWords, Word.options]
    all_goals simp [addWord, addValue, ofWords, Word.options, eq_comm]

/-- Words are read one after another. -/
theorem foldlM_addWord_eq_ok {words : List Word} {found : BuildArguments} :
    words.foldlM addWord start = .ok found ↔
      ∃ intervals, List.Forall₂ IsNumeral (values .pollInterval words) intervals ∧
        found = ofWords words intervals := by
  induction words using List.reverseRecOn generalizing found with
  | nil =>
    simp [values, eq_comm, start, ofWords, Word.options, Word.inputs, uses, pure, Except.pure,
      BuildOptions.initial]
  | append_singleton front word ih =>
    have last (state : BuildArguments) : [word].foldlM addWord state = state.addWord word := by
      cases word <;> simp
    simp only [List.foldlM_append, bind_eq_ok, ih, last, Word.values_append, forall₂_append_iff]
    constructor
    · rintro ⟨middle, ⟨first, here, rfl⟩, own⟩
      obtain ⟨second, there, rfl⟩ := addWord_eq_ok.mp own
      exact ⟨first ++ second, ⟨first, second, here, there, rfl⟩, rfl⟩
    · rintro ⟨_, ⟨first, second, here, there, rfl⟩, rfl⟩
      exact ⟨_, ⟨first, here, rfl⟩, addWord_eq_ok.mpr ⟨second, there, rfl⟩⟩

variable {verb : Verb}

theorem read_word (builds : verb ≠ .scan) {word : Word} (own : word.IsOf verb)
    (state : BuildArguments) (rest : List String) :
    read verb.name verb.watches state (word.texts ++ rest) =
      state.addWord word >>= fun next => read verb.name verb.watches next rest := by
  cases word with
  | input text =>
    rw [Word.IsOf, Verb.reserves_iff builds, not_exists, ← Flag.ofText?_eq_none] at own
    simp [Word.texts, read, own, addWord, bind, Except.bind]
  | switch flag spelling =>
    obtain ⟨plain, spelled⟩ := own
    obtain ⟨spelled, known⟩ := (Verb.mem_spellings builds).mp spelled
    simp [Word.texts, read, Flag.ofText?_eq_some.mpr spelled, known, plain, addWord, bind,
      Except.bind]
  | setting flag spelling value =>
    obtain ⟨takes, spelled⟩ := own
    obtain ⟨spelled, known⟩ := (Verb.mem_spellings builds).mp spelled
    simp only [Word.texts, List.cons_append, List.nil_append, read,
      Flag.ofText?_eq_some.mpr spelled, known, takes, addWord]
    cases state.addValue flag value <;> rfl

theorem read_words (builds : verb ≠ .scan) {words : List Word}
    (each : ∀ word ∈ words, word.IsOf verb) (state : BuildArguments) (rest : List String) :
    read verb.name verb.watches state (words.flatMap Word.texts ++ rest) =
      words.foldlM addWord state >>= fun next => read verb.name verb.watches next rest := by
  induction words generalizing state with
  | nil => rfl
  | cons word words ih =>
    obtain ⟨own, others⟩ := List.forall_mem_cons.mp each
    rw [List.flatMap_cons, List.append_assoc, read_word builds own, List.foldlM_cons, bind_assoc]
    congr 1
    funext next
    exact ih others next

theorem parse_words (builds : verb ≠ .scan) {words : List Word}
    (each : ∀ word ∈ words, word.IsOf verb) {found : BuildArguments} :
    parse verb.name verb.watches (words.flatMap Word.texts) = .ok found ↔
      Word.inputs words ≠ [] ∧
        ∃ intervals, List.Forall₂ IsNumeral (values .pollInterval words) intervals ∧
        found = ofWords words intervals := by
  have whole := read_words builds each start []
  rw [List.append_nil] at whole
  unfold parse
  simp only [whole, read, bind_eq_ok, foldlM_addWord_eq_ok, Except.ok.injEq, checked_eq_ok]
  constructor
  · rintro ⟨_, ⟨_, ⟨intervals, each, rfl⟩, rfl⟩, some_input, rfl⟩
    exact ⟨some_input, intervals, each, rfl⟩
  · rintro ⟨some_input, intervals, each, rfl⟩
    exact ⟨_, ⟨_, ⟨intervals, each, rfl⟩, rfl⟩, some_input, rfl⟩

theorem read_foreign {state : BuildArguments} {flag : Flag} {spelling : String} {rest : List String}
    (only : flag.watchOnly = true) (spelled : spelling ∈ flag.spellings) :
    read Verb.build.name Verb.build.watches state (spelling :: rest) =
      .error .pollWithoutWatch := by
  simp [read, Flag.ofText?_eq_some.mpr spelled, only, Verb.watches]

theorem read_unfinished (builds : verb ≠ .scan) {state : BuildArguments} {flag : Flag}
    {spelling : String} (takes : flag.takesValue = true)
    (spelled : spelling ∈ verb.spellings flag) :
    read verb.name verb.watches state [spelling] = .error (.missingValue verb.name flag.text) := by
  obtain ⟨spelled, known⟩ := (Verb.mem_spellings builds).mp spelled
  simp [read, Flag.ofText?_eq_some.mpr spelled, known, takes]

/-- Only words that go on to the end are read. -/
theorem eq_nil_of_parse (builds : verb ≠ .scan) {words : List Word}
    (each : ∀ word ∈ words, word.IsOf verb) {rest : List String} (stops : verb.Stops rest)
    {found : BuildArguments}
    (parsed : parse verb.name verb.watches (words.flatMap Word.texts ++ rest) = .ok found) :
    rest = [] := by
  unfold parse at parsed
  obtain ⟨_, whole, -⟩ := bind_eq_ok.mp parsed
  rw [read_words builds each] at whole
  obtain ⟨state, -, last⟩ := bind_eq_ok.mp whole
  cases stops with
  | done => rfl
  | unfinished takes spelled =>
    rw [read_unfinished builds takes spelled] at last
    cases last
  | foreign build only spelled =>
    subst build
    rw [read_foreign only spelled] at last
    cases last

end BuildArguments

/-- A command in words, one of which is an input. -/
structure Line where
  verb : Verb
  words : List Word
  each : ∀ word ∈ words, word.IsOf verb
  some_input : Word.inputs words ≠ []

namespace Line

def arguments (line : Line) : List String := line.verb.name :: line.words.flatMap Word.texts

/-- Whether the line is that command. Of several values for one option the last counts. -/
def Means (line : Line) : Command → Prop
  | .help => False
  | .scan inputs ignored =>
    line.verb = .scan ∧ inputs = Word.inputs line.words ∧ ignored = Word.values .ignore line.words
  | .build inputs options =>
    line.verb = .build ∧ inputs = Word.inputs line.words ∧ options = Word.options line.words
  | .watch inputs options poll interval =>
    line.verb = .watch ∧ inputs = Word.inputs line.words ∧ options = Word.options line.words ∧
      ∃ intervals, List.Forall₂ IsNumeral (Word.values .pollInterval line.words) intervals ∧
        poll = (Word.uses .poll line.words || intervals ≠ []) ∧
        interval = intervals.getLast?.getD defaultInterval

theorem parse_scan {words : List Word} (each : ∀ word ∈ words, word.IsOf .scan)
    {command : Command} :
    parse ("scan" :: words.flatMap Word.texts) = .ok command ↔
      Word.inputs words ≠ [] ∧ command = .scan (Word.inputs words) (Word.values .ignore words) := by
  have whole := readScan_words each [] [] []
  rw [List.append_nil] at whole
  simp only [parse, whole, readScan, bind_eq_ok, checked_eq_ok]
  constructor
  · rintro ⟨_, ⟨⟩, some_input, rfl⟩
    exact ⟨some_input, rfl⟩
  · rintro ⟨some_input, rfl⟩
    exact ⟨_, rfl, some_input, rfl⟩

theorem parse_build {words : List Word} (each : ∀ word ∈ words, word.IsOf .build)
    {command : Command} :
    parse ("build" :: words.flatMap Word.texts) = .ok command ↔
      Word.inputs words ≠ [] ∧ command = .build (Word.inputs words) (Word.options words) := by
  change (BuildArguments.parse Verb.build.name Verb.build.watches _ >>= _) = _ ↔ _
  simp only [bind_eq_ok, BuildArguments.parse_words (by decide) each,
    Word.values_interval_of_build each, List.forall₂_nil_left_iff]
  constructor
  · rintro ⟨_, ⟨some_input, _, rfl, rfl⟩, same⟩
    exact ⟨some_input, (Except.ok.inj same).symm⟩
  · rintro ⟨some_input, rfl⟩
    exact ⟨_, ⟨some_input, _, rfl, rfl⟩, rfl⟩

theorem parse_watch {words : List Word} (each : ∀ word ∈ words, word.IsOf .watch)
    {command : Command} :
    parse ("watch" :: words.flatMap Word.texts) = .ok command ↔
      Word.inputs words ≠ [] ∧ ∃ intervals,
        List.Forall₂ IsNumeral (Word.values .pollInterval words) intervals ∧
        command = .watch (Word.inputs words) (Word.options words)
          (Word.uses .poll words || intervals ≠ [])
          (intervals.getLast?.getD defaultInterval) := by
  change (BuildArguments.parse Verb.watch.name Verb.watch.watches _ >>= _) = _ ↔ _
  simp only [bind_eq_ok, BuildArguments.parse_words (by decide) each]
  constructor
  · rintro ⟨_, ⟨some_input, intervals, numerals, rfl⟩, same⟩
    exact ⟨some_input, intervals, numerals, (Except.ok.inj same).symm⟩
  · rintro ⟨some_input, intervals, numerals, rfl⟩
    exact ⟨_, ⟨some_input, intervals, numerals, rfl⟩, rfl⟩

theorem parse_arguments (line : Line) (command : Command) :
    parse line.arguments = .ok command ↔ line.Means command := by
  obtain ⟨verb, words, each, some_input⟩ := line
  cases verb with
  | scan =>
    rw [arguments, Verb.name, parse_scan each]
    cases command <;> simp [Means, some_input]
  | build =>
    rw [arguments, Verb.name, parse_build each]
    cases command <;> simp [Means, some_input]
  | watch =>
    rw [arguments, Verb.name, parse_watch each]
    cases command with
    | watch inputs options poll interval =>
      constructor
      · rintro ⟨-, intervals, numerals, same⟩
        cases same
        exact ⟨rfl, rfl, rfl, intervals, numerals, rfl, rfl⟩
      · rintro ⟨-, rfl, rfl, intervals, numerals, rfl, rfl⟩
        exact ⟨some_input, intervals, numerals, rfl⟩
    | _ => simp [Means]

theorem of_parse (verb : Verb) {rest : List String} {command : Command}
    (parsed : parse (verb.name :: rest) = .ok command) :
    ∃ line : Line, line.arguments = verb.name :: rest := by
  obtain ⟨words, last, each, rfl, stops⟩ := exists_words verb rest
  have ends : last = [] := by
    cases verb with
    | scan =>
      obtain ⟨_, whole, -⟩ := bind_eq_ok.mp parsed
      rw [readScan_words each] at whole
      cases stops with
      | done => rfl
      | foreign build => cases build
      | @unfinished flag spelling takes spelled =>
        obtain rfl := Verb.mem_scan_spellings spelled
        have spelled : spelling = "--ignore" ∨ spelling = "-i" ∨ spelling = "-I" := by
          simpa [Verb.spellings] using spelled
        simp [readScan, spelled] at whole
    | build =>
      obtain ⟨_, whole, -⟩ := bind_eq_ok.mp parsed
      exact BuildArguments.eq_nil_of_parse (by decide) each stops whole
    | watch =>
      obtain ⟨_, whole, -⟩ := bind_eq_ok.mp parsed
      exact BuildArguments.eq_nil_of_parse (by decide) each stops whole
  subst ends
  rw [List.append_nil] at parsed ⊢
  have some_input : Word.inputs words ≠ [] := by
    cases verb with
    | scan => exact ((parse_scan each).mp parsed).1
    | build => exact ((parse_build each).mp parsed).1
    | watch => exact ((parse_watch each).mp parsed).1
  exact ⟨⟨verb, words, each, some_input⟩, rfl⟩

/-- Whatever is read as a command is a line, or asks for help. -/
theorem exists_line {arguments : List String} {command : Command}
    (parsed : parse arguments = .ok command) :
    command = .help ∨ ∃ line : Line, line.arguments = arguments := by
  unfold parse at parsed
  split at parsed
  · exact .inl (Except.ok.inj parsed).symm
  · exact .inr (of_parse .scan parsed)
  · exact .inr (of_parse .build parsed)
  · exact .inr (of_parse .watch parsed)
  · exact .inl (Except.ok.inj parsed).symm
  · exact .inl (Except.ok.inj parsed).symm
  · exact .inl (Except.ok.inj parsed).symm
  · cases parsed

end Line

/-- Whether the command has inputs that its line can hold, and an interval that can be written and
means polling. -/
def IsWritable : Command → Prop
  | .help => False
  | .scan inputs _ => inputs ≠ [] ∧ ∀ input ∈ inputs, ¬ Verb.scan.Reserves input
  | .build inputs _ => inputs ≠ [] ∧ ∀ input ∈ inputs, ¬ Verb.build.Reserves input
  | .watch inputs _ poll interval =>
    inputs ≠ [] ∧ (∀ input ∈ inputs, ¬ Verb.watch.Reserves input) ∧ interval < UInt64.size ∧
      (poll = false → interval = defaultInterval)

/-- The line that has these words in front of the inputs. -/
def Line.behind (verb : Verb) (words : List Word) (inputs : List String)
    (each : ∀ word ∈ words, word.IsOf verb) (unreserved : ∀ input ∈ inputs, ¬ verb.Reserves input)
    (some_input : inputs ≠ []) : Line where
  verb := verb
  words := words ++ inputs.map .input
  each := by
    intro word member
    rcases List.mem_append.mp member with front | back
    · exact each word front
    · obtain ⟨input, inside, rfl⟩ := List.mem_map.mp back
      exact unreserved input inside
  some_input := by simp [some_input]

/-- The commands that lines mean are those that can be written. -/
theorem exists_meaning {command : Command} :
    (∃ line : Line, line.Means command) ↔ command.IsWritable := by
  constructor
  · rintro ⟨⟨verb, words, each, some_input⟩, meant⟩
    have unreserved := Word.not_reserves_of_mem_inputs each
    cases command with
    | help => exact meant
    | scan inputs ignored =>
      obtain ⟨rfl, rfl, -⟩ := meant
      exact ⟨some_input, unreserved⟩
    | build inputs options =>
      obtain ⟨rfl, rfl, -⟩ := meant
      exact ⟨some_input, unreserved⟩
    | watch inputs options poll interval =>
      obtain ⟨rfl, rfl, -, intervals, numerals, rfl, rfl⟩ := meant
      refine ⟨some_input, unreserved, ?_, ?_⟩
      · cases last : intervals.getLast? with
        | none => decide
        | some interval =>
          obtain ⟨_, -, numeral⟩ := exists_left_of_forall₂ numerals (List.mem_of_getLast? last)
          exact numeral.1
      · intro unpolled
        simp only [Bool.or_eq_false_iff, decide_eq_false_iff_not, not_not] at unpolled
        rw [unpolled.2]
        rfl
  · intro writable
    cases command with
    | help => exact writable.elim
    | scan inputs ignored =>
      obtain ⟨some_input, unreserved⟩ := writable
      have each : ∀ word ∈ ignored.map (Word.setting .ignore "--ignore"), word.IsOf .scan := by
        simp [Word.IsOf, Flag.takesValue, Verb.spellings]
      refine ⟨.behind .scan _ inputs each unreserved some_input, rfl, ?_, ?_⟩
      · simp [Line.behind]
      · simp [Line.behind]
    | build inputs options =>
      obtain ⟨some_input, unreserved⟩ := writable
      have each : ∀ word ∈ Word.ofOptions options, word.IsOf .build := fun word =>
        Word.isOf_of_mem_ofOptions (by decide)
      refine ⟨.behind .build _ inputs each unreserved some_input, rfl, ?_, ?_⟩
      · simp [Line.behind, Word.inputs_ofOptions]
      · simp [Line.behind, Word.options_ofOptions]
    | watch inputs options poll interval =>
      obtain ⟨some_input, unreserved, fits, plain⟩ := writable
      have each : ∀ word ∈ Word.ofOptions options, word.IsOf .watch := fun word =>
        Word.isOf_of_mem_ofOptions (by decide)
      have untimed : ∀ word ∈ Word.ofOptions options, word.IsOf .build := fun word =>
        Word.isOf_of_mem_ofOptions (by decide)
      cases poll with
      | false =>
        refine ⟨.behind .watch _ inputs each unreserved some_input, rfl, ?_, ?_, [], ?_,
          ?_, plain rfl⟩
        · simp [Line.behind, Word.inputs_ofOptions]
        · simp [Line.behind, Word.options_ofOptions]
        · simp [Line.behind, Word.values_interval_of_build untimed]
        · simp [Line.behind, Word.uses_poll_of_build untimed]
      | true =>
        let text := String.ofList (Nat.toDigits 10 interval)
        have written : IsNumeral text interval := ⟨fits, 0, .inl (by simp [text, numeral])⟩
        have timed :
            ∀ word ∈ Word.setting .pollInterval "--poll-interval" text :: Word.ofOptions options,
            word.IsOf .watch := List.forall_mem_cons.mpr ⟨⟨rfl, by decide⟩, each⟩
        refine ⟨.behind .watch _ inputs timed unreserved some_input, rfl, ?_, ?_, [interval],
          ?_, ?_, rfl⟩
        · simp [Line.behind, Word.inputs_ofOptions]
        · simp [Line.behind, Word.options_ofOptions]
        · simp [Line.behind, Word.values_interval_of_build untimed, written]
        · simp [Line.behind, Word.uses_poll_of_build untimed]

theorem read_build {words : List Word} (each : ∀ word ∈ words, word.IsOf .build)
    (rest : List String) :
    BuildArguments.read Verb.build.name Verb.build.watches .start
      (words.flatMap Word.texts ++ rest) =
      BuildArguments.read Verb.build.name Verb.build.watches (.ofWords words []) rest := by
  have whole : words.foldlM BuildArguments.addWord .start = .ok (.ofWords words []) :=
    BuildArguments.foldlM_addWord_eq_ok.mpr ⟨[], by simp [Word.values_interval_of_build each], rfl⟩
  rw [BuildArguments.read_words (by decide) each, whole]
  rfl

theorem parse_build_eq_pollWithoutWatch {arguments : List String} :
    parse ("build" :: arguments) = .error .pollWithoutWatch ↔
      BuildArguments.read Verb.build.name Verb.build.watches .start arguments =
        .error .pollWithoutWatch := by
  change (BuildArguments.parse Verb.build.name Verb.build.watches arguments >>= _) = _ ↔ _
  unfold BuildArguments.parse
  cases BuildArguments.read Verb.build.name Verb.build.watches .start arguments with
  | error error => simp [bind, Except.bind]
  | ok found =>
    cases inputs : found.inputs <;>
      simp [bind, Except.bind, inputs, throw, throwThe, MonadExceptOf.throw, pure, Except.pure]

/-- A build is refused for polling at the first flag of polling that is no value. -/
theorem parse_build_refused {arguments : List String} :
    parse ("build" :: arguments) = .error .pollWithoutWatch ↔
      ∃ (words : List Word) (flag : String) (rest : List String),
        (∀ word ∈ words, word.IsOf .build) ∧
        (flag = "--poll" ∨ flag = "--poll-interval") ∧
          arguments = words.flatMap Word.texts ++ flag :: rest := by
  rw [parse_build_eq_pollWithoutWatch]
  constructor
  · intro refused
    obtain ⟨words, last, each, rfl, stops⟩ := exists_words .build arguments
    rw [read_build each] at refused
    cases stops with
    | done => cases refused
    | unfinished takes spelled =>
      rw [BuildArguments.read_unfinished (by decide) takes spelled] at refused
      cases refused
    | @foreign flag spelling rest _ only spelled =>
      refine ⟨words, spelling, rest, each, ?_, rfl⟩
      cases flag <;> simp_all [Flag.watchOnly, Flag.spellings]
  · rintro ⟨words, flag, rest, each, poll, rfl⟩
    rw [read_build each]
    rcases poll with rfl | rfl
    · exact BuildArguments.read_foreign (rfl : Flag.poll.watchOnly = true) (by decide)
    · exact BuildArguments.read_foreign (rfl : Flag.pollInterval.watchOnly = true) (by decide)

/-- Reading takes back the writing of commands. Every line is read as the command that it means, and
as no other; the commands with a line are those that can be written; and nothing else is read, but
for what asks for help. A build is refused exactly when a flag of polling stands where no value
is. -/
theorem parse_takes_back :
    (∀ (line : Line) (command : Command), parse line.arguments = .ok command ↔ line.Means command) ∧
      (∀ command : Command, (∃ line : Line, line.Means command) ↔ command.IsWritable) ∧
      (∀ (arguments : List String) (command : Command), parse arguments = .ok command →
        command = .help ∨ ∃ line : Line, line.arguments = arguments) ∧
      ∀ arguments : List String, parse ("build" :: arguments) = .error .pollWithoutWatch ↔
        ∃ (words : List Word) (flag : String) (rest : List String),
          (∀ word ∈ words, word.IsOf .build) ∧
          (flag = "--poll" ∨ flag = "--poll-interval") ∧
            arguments = words.flatMap Word.texts ++ flag :: rest :=
  ⟨Line.parse_arguments, fun _ => exists_meaning, fun _ _ => Line.exists_line,
    fun _ => parse_build_refused⟩

/-- Flags as values, and a flag of polling as a value and then as itself. -/
theorem parse_takes_back_of_flags :
    let arguments :=
      ["build", "--out", "--minify", "a.json", "-I", "--poll", "--minify", "-I", "b", "c.json"]
    let command : Command :=
      .build ["a.json", "c.json"] ⟨some "--minify", none, true, none, ["--poll", "b"]⟩
    parse arguments = .ok command ∧ (∃ line : Line, line.arguments = arguments) ∧
      parse ["build", "--classes", "--poll", "--poll", "a.json"] = .error .pollWithoutWatch := by
  intro arguments command
  obtain ⟨reads, -, lines, refuses⟩ := parse_takes_back
  let line : Line :=
    ⟨.build, [.setting .output "--out" "--minify", .input "a.json", .setting .ignore "-I" "--poll",
    .switch .minify "--minify", .setting .ignore "-I" "b", .input "c.json"], by decide, by decide⟩
  have parsed : parse arguments = .ok command := (reads line command).mpr ⟨rfl, rfl, rfl⟩
  refine ⟨parsed, ?_, (refuses _).mpr
    ⟨[.setting .classes "--classes" "--poll"], "--poll", ["a.json"], ?_⟩⟩
  · exact (lines arguments command parsed).resolve_left (by decide)
  · exact ⟨by decide, .inl rfl, rfl⟩

end AtomicCss.Command
