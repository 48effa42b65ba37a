/-!
# The command line

A job is named by a source file and an output directory, in this order, and by
options.  Options may stand anywhere before `--`; single letters may be written
together.  `--config` takes a value, either after `=` or as the next argument.
Values may not be empty, and but for `-v` no option may be repeated.

The first argument at fault decides the error.  A value is looked at when the
argument after it turns out to be known.
-/

namespace SharpMutants

/-- What a command line asks for. -/
structure Arguments where
  source : String
  outputDir : String
  config : Option String
  verbose : Nat
  quiet : Bool
  report : Bool
  dot : Bool
  print : Bool
deriving DecidableEq

/-- Why a command line asks for no job. -/
inductive ArgumentError where
  | help
  | version
  | unknownArgument
  | missingArgument
  /-- An option is repeated, or two options exclude each other. -/
  | conflict
  /-- A value is missing or empty. -/
  | invalidValue
  /-- An option that takes no value is given one. -/
  | excessValue
deriving DecidableEq

namespace CommandLine

/-- A value that is not looked at yet. -/
inductive Waiting where
  | nothing
  | config (value : Option String)
  | place (value : String)

/-- The options without a value that stand once at most. -/
structure Flags where
  quiet : Bool
  report : Bool
  dot : Bool
  print : Bool

/-- What is read so far. -/
structure Draft where
  places : List String
  config : Option String
  verbose : Nat
  flags : Flags
  waiting : Waiting
  /-- Whether `--` stood before. -/
  literal : Bool

/-- Nothing is read. -/
def Draft.empty : Draft := ⟨[], none, 0, ⟨false, false, false, false⟩, .nothing, false⟩

/-- The largest count of `-v`. -/
def verboseLimit : Nat := 255

/-- Looks at the value that waits. -/
def settle (s : Draft) : Except ArgumentError Draft :=
  match s.waiting with
  | .nothing => .ok s
  | .config none => .error .invalidValue
  | .config (some v) =>
    if s.config.isSome then .error .conflict
    else if v.isEmpty then .error .invalidValue
    else .ok { s with config := some v, waiting := .nothing }
  | .place v =>
    if v.isEmpty then .error .invalidValue
    else .ok { s with places := s.places ++ [v], waiting := .nothing }

/-- Number of places read, one that waits included. -/
def placeCount (s : Draft) : Nat :=
  match s.waiting with
  | .place _ => s.places.length + 1
  | _ => s.places.length

/-- A source file or an output directory. -/
def place (s : Draft) (value : String) : Except ArgumentError Draft :=
  if 2 ≤ placeCount s then .error .unknownArgument
  else do return { (← settle s) with waiting := .place value }

/-- The options. -/
inductive Switch where
  | verbose
  | quiet
  | report
  | dot
  | print
  | help
  | version

/-- The option of a letter. -/
def ofLetter? (c : Char) : Option Switch :=
  if c = 'v' then some .verbose
  else if c = 'q' then some .quiet
  else if c = 'h' then some .help
  else if c = 'V' then some .version
  else none

/-- The option of a word. -/
def ofWord? (word : String) : Option Switch :=
  [("verbose", Switch.verbose), ("quiet", .quiet), ("report", .report), ("dot", .dot),
    ("print", .print), ("help", .help), ("version", .version)].lookup word

/-- Sets a flag that is not set yet. -/
def raise (isSet : Bool) (flags : Flags) (s : Draft) : Except ArgumentError Draft :=
  if isSet then .error .conflict else .ok { s with flags := flags }

/-- Reads an option. -/
def switch (s : Draft) (option : Switch) : Except ArgumentError Draft := do
  let s ← settle s
  match option with
  | .verbose => return { s with verbose := min (s.verbose + 1) verboseLimit }
  | .quiet => raise s.flags.quiet { s.flags with quiet := true } s
  | .report => raise s.flags.report { s.flags with report := true } s
  | .dot => raise s.flags.dot { s.flags with dot := true } s
  | .print => raise s.flags.print { s.flags with print := true } s
  | .help => throw .help
  | .version => throw .version

/-- Reads single letters. -/
def letters (s : Draft) : List Char → Except ArgumentError Draft
  | [] => .ok s
  | c :: cs =>
    match ofLetter? c with
    | some option => do letters (← switch s option) cs
    | none => .error .unknownArgument

/-- The text before the first `=`, and the text after it if there is one. -/
def splitValue : List Char → List Char × Option (List Char)
  | [] => ([], none)
  | c :: cs =>
    if c = '=' then ([], some cs)
    else
      let (word, value) := splitValue cs
      (c :: word, value)

/-- Reads a word, and the value after it if there is one. -/
def word (s : Draft) (cs : List Char) : Except ArgumentError Draft := do
  let (name, value) := splitValue cs
  if String.ofList name = "config" then
    let s ← settle s
    let s : Draft := { s with waiting := .config (value.map String.ofList) }
    if value.isSome then settle s else return s
  else
    match ofWord? (String.ofList name), value with
    | none, _ => throw .unknownArgument
    | some _, some _ => throw .excessValue
    | some option, none => switch s option

/-- Reads an argument that begins no option. -/
def plain (s : Draft) (argument : String) : Except ArgumentError Draft :=
  match s.waiting with
  | .config none => .ok { s with waiting := .config (some argument) }
  | _ => place s argument

/-- Reads an argument. -/
def step (s : Draft) (argument : String) : Except ArgumentError Draft :=
  if s.literal then place s argument
  else
    match argument.toList with
    | ['-', '-'] => .ok { s with literal := true }
    | '-' :: '-' :: cs => word s cs
    | '-' :: c :: cs => letters s (c :: cs)
    | _ => plain s argument

/-- What a draft asks for: options that exclude each other come before missing places. -/
def finish (s : Draft) : Except ArgumentError Arguments := do
  let s ← settle s
  if s.flags.quiet ∧ 0 < s.verbose then throw .conflict
  match s.places with
  | [source, outputDir] =>
    return ⟨source, outputDir, s.config, s.verbose, s.flags.quiet, s.flags.report, s.flags.dot,
      s.flags.print⟩
  | _ => throw .missingArgument

/-- Reads the arguments after the name of the program. -/
def read (arguments : List String) : Except ArgumentError Arguments := do
  finish (← arguments.foldlM step .empty)

end CommandLine

end SharpMutants
