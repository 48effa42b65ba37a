import Std.Time.DateTime.Timestamp
import SharpMutants.Output.Job

/-!
# The program

Reads the command line, does the job on the file system of the machine, and tells
what came of it: mutants and help go to the standard output, all else to the
standard error.  The clock shows universal time.
-/

namespace SharpMutants

namespace Program

/-- The number that the system gives to a failure. -/
def systemNumber? : IO.Error → Option UInt32
  | .alreadyExists _ n _ | .inappropriateType _ n _ | .invalidArgument _ n _
  | .resourceExhausted _ n _ | .noFileOrDirectory _ n _ => some n
  | .resourceBusy n _ | .unsatisfiedConstraints n _ => some n
  | _ => none

/-- A failure of the system.  Its number may come with the sign turned. -/
def storageError (e : IO.Error) : StorageError :=
  let known : List (UInt32 × StorageError) :=
    [(2, .notFound), (16, .busy), (17, .alreadyExists), (20, .notADirectory), (21, .isADirectory),
      (22, .invalidArgument), (36, .nameTooLong), (39, .notEmpty)]
  ((systemNumber? e).bind fun n => (known.lookup n).or (known.lookup (0 - n))).getD
    (.other (toString e))

/-- A call on the file system of the machine, for paths without the null character. -/
def guarded {α : Type} (paths : List Path) (action : IO α) : IO (Except StorageError α) := do
  if paths.any fun p => p.contains '\x00' then return .error .nullInPath
  try return .ok (← action)
  catch e => return .error (storageError e)

/-- The text of a file on the machine. -/
def readText (p : Path) : IO (Except StorageError Text) := do
  match ← guarded [p] (IO.FS.readBinFile p.render) with
  | .ok bytes => return (String.fromUTF8? bytes).elim (.error .notText) fun s => .ok s.toList
  | .error e => return .error e

instance : Storage IO where
  isPresent p := do
    match ← guarded [p] (IO.FS.realPath p.render) with
    | .ok _ => return true
    | .error _ => return false
  read := readText
  write p content := guarded [p] (IO.FS.writeFile p.render (String.ofList content))
  createDirectory p := guarded [p] (IO.FS.createDir p.render)
  createDirectories p := guarded [p] (IO.FS.createDirAll p.render)
  removeTree p := guarded [p] (IO.FS.removeDirAll p.render)
  rename p q := guarded [p, q] (IO.FS.rename p.render q.render)

/-- The lines that tell how to use the program. -/
def usage : List String := [
  "Generates compiling mutants of a C# source file",
  "",
  "Usage: sharp-mutants [OPTIONS] <SOURCE> <OUTPUT_DIR>",
  "",
  "Arguments:",
  "  <SOURCE>      C# file to mutate",
  "  <OUTPUT_DIR>  Directory that receives the `Output-<timestamp>` folder",
  "",
  "Options:",
  "  -v, --verbose...     List the mutants that are written",
  "  -q, --quiet          Only print errors",
  "      --config <FILE>  JSON configuration file",
  "      --report         Also write report.json with metrics for the run",
  "      --dot            Also write one Graphviz file per method",
  "      --print          Print every written mutant to the standard output",
  "  -h, --help           Print help",
  "  -V, --version        Print version"]

/-- The version of the program. -/
def version : String := "sharp-mutants 0.1.0"

/-- A refused command line in words. -/
def refusal : ArgumentError → String
  | .unknownArgument => "there is an argument that is not known"
  | .missingArgument => "a source file and an output directory are needed"
  | .conflict => "an option is repeated, or two options exclude each other"
  | .invalidValue => "a value is missing or empty"
  | .excessValue => "an option that takes no value is given one"
  | .help | .version => ""

/-- The mutants of a job as they are printed. -/
def printed (s : Summary) : List String :=
  s.run.survivors.zipIdx.flatMap fun (m, i) =>
    ["// " ++ String.ofList (Folder.mutantFile i) ++ ": " ++ m.description,
      String.ofList m.document.render]

/-- The lines about a finished job. -/
def told (a : Arguments) (s : Summary) : List String :=
  s.run.diagnostics.map Diagnostic.render ++
    (if 0 < a.verbose then s.run.survivors.map Mutant.description else []) ++
    [toString s.written ++ " of " ++ toString s.candidates ++ " mutants compile (" ++
      toString s.rejected ++ " rejected)"] ++
    (if 0 < s.warnings then ["source has " ++ toString s.warnings ++ " warning(s)"] else []) ++
    ["  " ++ s.output.render]

/-- Does a job and tells about it. -/
def perform (a : Arguments) : IO UInt32 := do
  let now := Moment.ofSeconds (← Std.Time.Timestamp.now).toSecondsSinceUnixEpoch.val
  match ← (Job.execute a now : ExceptT JobError IO Summary).run with
  | .error e =>
    IO.eprintln ("error: " ++ e.message)
    return 1
  | .ok s =>
    if a.print then (printed s).forM IO.println
    if !a.quiet then (told a s).forM IO.eprintln
    return 0

end Program

end SharpMutants

open SharpMutants in
/-- The program: its exit code is 0 for a finished job, 1 for a failed one and 2 for a refused
command line. -/
def main (arguments : List String) : IO UInt32 := do
  match CommandLine.read arguments with
  | .ok a => Program.perform a
  | .error .help =>
    Program.usage.forM IO.println
    return 0
  | .error .version =>
    IO.println Program.version
    return 0
  | .error e =>
    IO.eprintln ("error: " ++ Program.refusal e)
    return 2
