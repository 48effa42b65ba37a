import SharpMutants.Json.Read
import SharpMutants.Text.Quoted
import SharpMutants.Mutation.Mutant

/-!
# Settings

Settings choose the families of mutants, the comment that marks a rewritten node,
and how the data flow analysis reads conditions.  They are read from JSON, where
every field may be left out, a field that is not known is passed over, and one
that is known stands once at most; an array gives the fields by position.

A marker must not end the comment that it stands in, and some family must be
chosen.
-/

namespace SharpMutants

namespace Json

/-- The values of the named fields of a record: from an object without repeated ones among
them, or from an array of at most as many values. -/
def fieldsOf? (names : List String) : Json → Option (List (Option Json))
  | object fields =>
    let keys := fields.map Prod.fst
    if keys.all Option.isSome && names.all (fun n => keys.count (some n) ≤ 1) then
      some (names.map fun n => field? n (object fields))
    else none
  | array values =>
    if values.length ≤ names.length then some (names.zipIdx.map fun (_, i) => values[i]?)
    else none
  | _ => none

/-- The truth value of a field, or the one it has when it is left out. -/
def boolOr? (default : Bool) : Option Json → Option Bool
  | none => some default
  | some (bool b) => some b
  | some _ => none

end Json

/-- The families of mutants that are made. -/
structure FamilySelection where
  binary : Bool
  unary : Bool
  statement : Bool
  identifier : Bool
deriving DecidableEq

namespace FamilySelection

/-- All families. -/
def all : FamilySelection := ⟨true, true, true, true⟩

/-- Whether any family is made. -/
def any (s : FamilySelection) : Bool := s.binary || s.unary || s.statement || s.identifier

/-- The mutators of the chosen families, the one that is asked first in front. -/
def mutators (s : FamilySelection) : List Mutator :=
  (if s.binary then [.binaryOperator] else []) ++
    (if s.unary then [.postfixStep, .prefixOperator] else []) ++
    (if s.statement then [.statementDeletion] else []) ++
    (if s.identifier then [.identifierReplacement] else [])

/-- The selection that a JSON value spells. -/
def ofJson? (v : Json) : Option FamilySelection := do
  let [binary, unary, statement, identifier] ←
    v.fieldsOf? ["binary", "unary", "statement", "identifier"] | none
  return ⟨← Json.boolOr? true binary, ← Json.boolOr? true unary, ← Json.boolOr? true statement,
    ← Json.boolOr? true identifier⟩

end FamilySelection

/-- How a job makes and judges mutants. -/
structure Settings where
  families : FamilySelection
  /-- The text of the comment that marks a rewritten node; none for no comment. -/
  marker : Option String
  /-- Whether reads in conditions count for liveness. -/
  conditionUses : Bool
  /-- Whether mutants may be judged side by side; the outcome is the same. -/
  parallel : Bool
deriving DecidableEq

/-- Settings that make no sense. -/
inductive SettingsError where
  | markerEndsComment (marker : String)
  | noFamily
deriving DecidableEq

/-- The failure in words. -/
def SettingsError.message : SettingsError → String
  | markerEndsComment marker =>
    "marker text must not contain `*/`: " ++ String.ofList (Text.quoted marker.toList)
  | noFamily => "all mutation operators are disabled"

namespace Settings

/-- The settings when nothing is said. -/
def standard : Settings := ⟨.all, some "Mutation", false, true⟩

/-- Whether a text has the end of a comment in it. -/
def endsComment : Text → Bool
  | '*' :: '/' :: _ => true
  | _ :: cs => endsComment cs
  | [] => false

/-- Refuses settings that make no sense; a bad marker comes first. -/
def validate (s : Settings) : Except SettingsError Unit :=
  match s.marker.filter fun m => endsComment m.toList with
  | some marker => .error (.markerEndsComment marker)
  | none => if s.families.any then .ok () else .error .noFamily

/-- The plan that carries the settings out. -/
def plan (s : Settings) : MutationPlan := ⟨s.families.mutators, s.marker, s.conditionUses⟩

/-- The families that a field chooses, all if it is left out. -/
def familiesOr? : Option Json → Option FamilySelection
  | none => some .all
  | some v => FamilySelection.ofJson? v

/-- The marker that a field gives; null stands for no marker. -/
def markerOr? : Option Json → Option (Option String)
  | none => some standard.marker
  | some .null => some none
  | some (.string (some text)) => some (some text)
  | some _ => none

/-- The reading of conditions that a field gives. -/
def conditionUsesOr? : Option Json → Option Bool
  | none => some standard.conditionUses
  | some v => do
    let [uses] ← v.fieldsOf? ["condition_uses"] | none
    Json.boolOr? standard.conditionUses uses

/-- The settings that a JSON value spells. -/
def ofJson? (v : Json) : Option Settings := do
  let [families, marker, dataflow, parallel] ←
    v.fieldsOf? ["operators", "marker", "dataflow", "parallel_validation"] | none
  return ⟨← familiesOr? families, ← markerOr? marker, ← conditionUsesOr? dataflow,
    ← Json.boolOr? standard.parallel parallel⟩

/-- The settings that a text spells in JSON. -/
def read? (text : Text) : Option Settings := (Json.parse? text).bind ofJson?

end Settings

end SharpMutants
