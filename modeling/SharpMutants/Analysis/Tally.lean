import SharpMutants.Json
import SharpMutants.Decimal.Shortest
import SharpMutants.Mutation.Mutant

/-!
# Counting mutants

A tally counts candidates and survivors, altogether and by family, and gives the
share of survivors in percent.  It is opened with the candidates; counting
survivors replaces the survivors that were counted before.  A family stands in a
tally once it has a candidate or a survivor.
-/

namespace SharpMutants

/-- The mutants of a family. -/
structure FamilyTally where
  candidates : Nat
  valid : Nat
deriving DecidableEq

namespace FamilyTally

/-- Number of candidates that did not survive. -/
def rejected (t : FamilyTally) : Nat := t.candidates - t.valid

/-- The counts as a record. -/
def toJson (t : FamilyTally) : Json :=
  .record [("candidates", .nat t.candidates), ("valid", .nat t.valid)]

end FamilyTally

/-- Counts of mutants. -/
structure Tally where
  candidates : Nat
  valid : Nat
  /-- The share of survivors in percent. -/
  validity : Binary64
  /-- The families with a mutant, in the order of `Family.all`. -/
  families : List (Family × FamilyTally)
deriving DecidableEq

namespace Tally

/-- Number of mutants of a family. -/
def countOf (f : Family) (ms : List Mutant) : Nat := ms.countP fun m => m.family == f

/-- The share of a number in another in percent; none of nothing is zero. -/
def percent (part whole : Nat) : Binary64 :=
  if whole = 0 then .zero else (Binary64.ofRatio part whole).times 100

/-- The tally of candidates alone. -/
def ofCandidates (ms : List Mutant) : Tally where
  candidates := ms.length
  valid := 0
  validity := .zero
  families :=
    (Family.all.map fun f => (f, FamilyTally.mk (countOf f ms) 0)).filter
      fun (_, t) => t.candidates != 0

/-- The counts of a family, if it stands in a tally. -/
def family? (t : Tally) (f : Family) : Option FamilyTally :=
  (t.families.find? fun e => e.1 == f).map Prod.snd

/-- The tally with these survivors. -/
def withSurvivors (t : Tally) (ms : List Mutant) : Tally where
  candidates := t.candidates
  valid := ms.length
  validity := percent ms.length t.candidates
  families := Family.all.filterMap fun f =>
    let valid := countOf f ms
    match t.family? f with
    | some old => some (f, ⟨old.candidates, valid⟩)
    | none => if valid = 0 then none else some (f, ⟨0, valid⟩)

/-- The tally as a record. -/
def toJson (t : Tally) : Json :=
  .record [
    ("candidates", .nat t.candidates),
    ("valid", .nat t.valid),
    ("validity_rate", .number t.validity.render),
    ("by_operator", .record (t.families.map fun (f, n) => (f.name, n.toJson)))]

end Tally

end SharpMutants
