import SharpMutants.CommandLine
import SharpMutants.Output.Folder
import SharpMutants.Mutation.Run
import SharpMutants.Analysis.Dot
import SharpMutants.Analysis.Report

/-!
# Jobs

A job reads its settings and its source, runs, and puts the survivors into a new
output folder, one file each; a drawing of every method and a report may go with
them.  They are made while the folder is filled.  A job that fails leaves no folder
behind.
-/

namespace SharpMutants

/-- Why settings cannot be loaded. -/
inductive LoadError where
  | unreadable (error : StorageError)
  | malformed
  | settings (error : SettingsError)

/-- The failure in words, with the cause after it. -/
def LoadError.message : LoadError → String
  | unreadable error => "IO error: " ++ error.message ++ ": " ++ error.message
  | malformed => "JSON error"
  | settings error => "invalid configuration: " ++ error.message ++ ": " ++ error.message

/-- Why a job fails. -/
inductive JobError where
  | foreignSource
  | loading (path : Path) (error : LoadError)
  | reading (path : Path) (error : StorageError)
  | parsing (path : Path) (error : ParseError)
  | run (error : RunError)
  | graph (error : DataflowError)
  | analysis (error : AnalysisError)
  | folder (error : FolderError)
  | report (path : Path) (error : StorageError)

/-- The failure in words, with its causes after it. -/
def JobError.message : JobError → String
  | foreignSource => "Please include a single C# file with file extension .cs"
  | loading path error => "loading configuration from " ++ path.render ++ ": " ++ error.message
  | reading path error => "reading " ++ path.render ++ ": " ++ error.message
  | parsing path error =>
    "parsing " ++ path.render ++ ": parse error at " ++ error.message ++ ": " ++ error.message
  | run error => error.message
  | graph error => error.message
  | analysis error => error.message
  | folder error => error.message
  | report path error => "writing report to " ++ path.render ++ ": " ++ error.message

/-- What a finished job reports. -/
structure Summary where
  output : Path
  run : Run

namespace Summary

/-- Number of candidates. -/
def candidates (s : Summary) : Nat := s.run.candidates.length

/-- Number of mutants written. -/
def written (s : Summary) : Nat := s.run.survivors.length

/-- Number of candidates that were not written. -/
def rejected (s : Summary) : Nat := s.run.rejected

/-- Number of warnings about the source. -/
def warnings (s : Summary) : Nat := (s.run.diagnostics.filter (!·.isError)).length

end Summary

namespace Job

/-- The name of the report. -/
def reportFile : Text := "report.json".toList

/-- The files of the survivors, numbered from zero. -/
def mutantFiles (r : Run) : List (Text × Text) :=
  r.survivors.zipIdx.map fun (m, i) => (Folder.mutantFile i, m.document.render)

/-- The drawing of a method of a document with a given flat view. -/
def drawing (d : Document) (a : Arena) (method : Nat) : Except JobError (Text × Text) :=
  match a.methodGraph method with
  | .ok g =>
    .ok ((a.qualifiedName method).toList ++ ".dot".toList, (g.dot (a.renderAt d.source)).toList)
  | .error e => .error (.graph e)

/-- The report on a run. -/
def reportOn (a : Arguments) (settings : Settings) (now : Moment) (r : Run) :
    Except JobError Text :=
  match r.document.analyze settings.conditionUses with
  | .error e => .error (.analysis e)
  | .ok analysis =>
    let tally := (Tally.ofCandidates r.candidates).withSurvivors r.survivors
    let report : Report :=
      ⟨a.source, some (String.ofList now.render), analysis, tally, r.survivors⟩
    .ok report.render.toList

/-- What a job makes of a source. -/
def runOn (a : Arguments) (settings : Settings) (source : Text) : Except JobError Run :=
  match parse source with
  | .error e => .error (.parsing a.source.toList e)
  | .ok d =>
    match Run.ofDocument settings check d with
    | .error e => .error (.run e)
    | .ok r => .ok r

variable {m : Type → Type} [Monad m] [Storage m]

/-- Loads settings that make sense. -/
def loadSettings (path : Path) : ExceptT LoadError m Settings := do
  let content ← Folder.attempt .unreadable (Storage.read path)
  match Settings.read? content with
  | none => throw .malformed
  | some settings =>
    match settings.validate with
    | .ok () => return settings
    | .error e => throw (.settings e)

/-- The settings that a command line names, or the standard ones. -/
def settingsOf (a : Arguments) : ExceptT JobError m Settings :=
  match a.config with
  | none => return .standard
  | some path => ExceptT.adapt (JobError.loading path.toList) (loadSettings path.toList)

/-- Puts files into a folder, given by name and text. -/
def writeAll (f : Folder) : List (Text × Text) → ExceptT FolderError m Unit
  | [] => return ()
  | (name, content) :: rest => do
    let _ ← f.write name content
    writeAll f rest

/-- Puts the drawings of methods of a document into a folder. -/
def drawAll (f : Folder) (d : Document) (arena : Arena) : List Nat → ExceptT JobError m Unit
  | [] => return ()
  | method :: rest => do
    let (name, content) ← ExceptT.mk (pure (drawing d arena method))
    let _ ← ExceptT.adapt JobError.folder (f.write name content)
    drawAll f d arena rest

/-- Puts all files of a job into a folder. -/
def fill (a : Arguments) (settings : Settings) (now : Moment) (r : Run) (f : Folder) :
    ExceptT JobError m Unit := do
  ExceptT.adapt JobError.folder (writeAll f (mutantFiles r))
  if a.dot then drawAll f r.document r.document.arena r.document.tree.methods
  if a.report then
    let content ← ExceptT.mk (pure (reportOn a settings now r))
    let path := f.working.join reportFile
    Folder.attempt (.report path) (Storage.write path content)

/-- Delivers into a new folder.  If that fails, the folder is discarded. -/
def deliver (a : Arguments) (settings : Settings) (now : Moment) (r : Run) :
    ExceptT JobError m Path := do
  let f ← ExceptT.adapt JobError.folder (Folder.create a.outputDir.toList (Folder.nameFor now))
  match ← ExceptT.lift (fill a settings now r f).run with
  | .error e =>
    ExceptT.lift f.discard
    throw e
  | .ok () => ExceptT.adapt JobError.folder f.commit

/-- Does a job at a moment. -/
def execute (a : Arguments) (now : Moment) : ExceptT JobError m Summary := do
  if Path.extension? a.source.toList != some "cs".toList then throw .foreignSource
  let settings ← settingsOf a
  let source ← Folder.attempt (.reading a.source.toList) (Storage.read a.source.toList)
  let r ← ExceptT.mk (pure (runOn a settings source))
  let output ← deliver a settings now r
  return ⟨output, r⟩

end Job

end SharpMutants
