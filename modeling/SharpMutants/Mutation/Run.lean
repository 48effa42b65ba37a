import SharpMutants.Syntax.Parse
import SharpMutants.Mutation.Settings

/-!
# Runs

A run takes a source text all the way: it reads the source, has it judged, makes
its mutants and keeps those that a compiler accepts.  A source that cannot be
read, or that has errors of its own, ends the run.
-/

namespace SharpMutants

/-- Why a run ends without mutants. -/
inductive RunError where
  | settings (error : SettingsError)
  | unreadable (error : ParseError)
  /-- The diagnostics are the errors of the source. -/
  | rejected (errors : List Diagnostic)
  | mutation (error : MutationError)

/-- The failure in words. -/
def RunError.message : RunError → String
  | settings error => "invalid configuration: " ++ error.message
  | unreadable error => "parse error at " ++ error.message
  | rejected errors =>
    "source does not compile (" ++ toString errors.length ++ " error(s)):\n" ++
      Diagnostics.render errors
  | mutation error => error.message

/-- The outcome of a run. -/
structure Run where
  document : Document
  /-- What the compiler said about the source, warnings only. -/
  diagnostics : List Diagnostic
  candidates : List Mutant
  /-- The candidates that the compiler accepts, in order. -/
  survivors : List Mutant

namespace Run

/-- Number of candidates that the compiler refused. -/
def rejected (r : Run) : Nat := r.candidates.length - r.survivors.length

/-- Has a document judged; its errors refuse it. -/
def judge (compiler : Compiler) (d : Document) : Except RunError (List Diagnostic) :=
  let found := compiler d
  if Diagnostics.accepted found then .ok found
  else .error (.rejected (found.filter Diagnostic.isError))

/-- Runs over a document. -/
def ofDocument (settings : Settings) (compiler : Compiler) (d : Document) :
    Except RunError Run := do
  let diagnostics ← judge compiler d
  match settings.plan.mutants d with
  | .error e => .error (.mutation e)
  | .ok candidates =>
    return ⟨d, diagnostics, candidates, candidates.filter (Mutant.isValid compiler)⟩

/-- Runs over a source, with settings that make sense. -/
def ofSource (settings : Settings) (compiler : Compiler) (source : Text) : Except RunError Run :=
  match settings.validate with
  | .error e => .error (.settings e)
  | .ok () =>
    match parse source with
    | .error e => .error (.unreadable e)
    | .ok d => ofDocument settings compiler d

end Run

end SharpMutants
