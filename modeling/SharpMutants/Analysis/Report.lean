import SharpMutants.Json.Print
import SharpMutants.Analysis.Metrics
import SharpMutants.Analysis.Tally

/-!
# Reports

A report on a source tells its metrics, the tally of its mutants, and a line for
every survivor, numbered from zero in the order in which the survivors are
written.  It is written as JSON with one field on a line.
-/

namespace SharpMutants

/-- A report on a run. -/
structure Report where
  source : String
  /-- When the report was made, if it is to say so. -/
  time : Option String
  analysis : Analysis
  tally : Tally
  survivors : List Mutant

namespace Report

/-- The entry of a survivor. -/
def entry (index : Nat) (m : Mutant) : Json :=
  .record [
    ("index", .nat index),
    ("operator", .text m.family.name),
    ("method", .text? m.method),
    ("line", .nat m.position.line),
    ("column", .nat m.position.column),
    ("description", .text m.description)]

/-- The report as a record. -/
def toJson (r : Report) : Json :=
  .record <|
    ("source", .text r.source) ::
      (r.time.toList.map fun time => ("generated_at", Json.text time)) ++
    [("analysis", r.analysis.toJson),
      ("mutations", r.tally.toJson),
      ("mutants", .array (r.survivors.zipIdx.map fun (m, i) => entry i m))]

/-- The text of a report. -/
def render (r : Report) : String := r.toJson.pretty

end Report

end SharpMutants
