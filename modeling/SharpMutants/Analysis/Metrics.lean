import SharpMutants.Json
import SharpMutants.Decimal.Shortest
import SharpMutants.Analysis.Loops
import SharpMutants.Dataflow.MethodFlow

/-!
# Metrics of methods

A method is measured by the size of its flow graph, its exits, loops and
cyclomatic complexity, and by what its data flow analysis found and how many
visits that took.  A document is measured by the sums over its methods, the mean
and the greatest complexity, and how many methods fall into each band of
complexity.
-/

namespace SharpMutants

/-- Numbers of methods by complexity: up to 5, up to 10, up to 20, and above. -/
structure ComplexityBands where
  low : Nat
  medium : Nat
  high : Nat
  veryHigh : Nat
deriving DecidableEq

namespace ComplexityBands

/-- No methods. -/
def empty : ComplexityBands := ⟨0, 0, 0, 0⟩

/-- The bands with one more method. -/
def add (b : ComplexityBands) (complexity : Nat) : ComplexityBands :=
  if complexity ≤ 5 then { b with low := b.low + 1 }
  else if complexity ≤ 10 then { b with medium := b.medium + 1 }
  else if complexity ≤ 20 then { b with high := b.high + 1 }
  else { b with veryHigh := b.veryHigh + 1 }

/-- Number of methods. -/
def total (b : ComplexityBands) : Nat := b.low + b.medium + b.high + b.veryHigh

/-- The bands as a record. -/
def toJson (b : ComplexityBands) : Json :=
  .record [("low", .nat b.low), ("medium", .nat b.medium), ("high", .nat b.high),
    ("very_high", .nat b.veryHigh)]

end ComplexityBands

/-- The measures of a method. -/
structure MethodMetrics where
  name : String
  line : Nat
  parameters : Nat
  nodes : Nat
  edges : Nat
  exits : Nat
  loops : Nat
  complexity : Nat
  definitions : Nat
  uses : Nat
  reachingVisits : Nat
  livenessVisits : Nat
deriving DecidableEq

/-- The measures as a record. -/
def MethodMetrics.toJson (m : MethodMetrics) : Json :=
  .record [
    ("name", .text m.name),
    ("line", .nat m.line),
    ("parameters", .nat m.parameters),
    ("cfg_nodes", .nat m.nodes),
    ("cfg_edges", .nat m.edges),
    ("exits", .nat m.exits),
    ("loops", .nat m.loops),
    ("cyclomatic_complexity", .nat m.complexity),
    ("definitions", .nat m.definitions),
    ("uses", .nat m.uses),
    ("reaching_iterations", .nat m.reachingVisits),
    ("liveness_iterations", .nat m.livenessVisits)]

/-- The measures of all methods together. -/
structure ModuleMetrics where
  methods : Nat
  nodes : Nat
  definitions : Nat
  meanComplexity : Binary64
  greatestComplexity : Nat
  bands : ComplexityBands
deriving DecidableEq

namespace ModuleMetrics

/-- The sum of a measure over methods. -/
def sumOf (measure : MethodMetrics → Nat) (ms : List MethodMetrics) : Nat :=
  ms.foldl (fun n m => n + measure m) 0

/-- The measures of a list of methods; the mean over no methods is zero. -/
def ofMethods (ms : List MethodMetrics) : ModuleMetrics where
  methods := ms.length
  nodes := sumOf MethodMetrics.nodes ms
  definitions := sumOf MethodMetrics.definitions ms
  meanComplexity :=
    if ms.isEmpty then .zero else .ofRatio (sumOf MethodMetrics.complexity ms) ms.length
  greatestComplexity := (ms.map MethodMetrics.complexity).foldl max 0
  bands := (ms.map MethodMetrics.complexity).foldl ComplexityBands.add .empty

/-- The measures as a record. -/
def toJson (m : ModuleMetrics) : Json :=
  .record [
    ("total_methods", .nat m.methods),
    ("total_cfg_nodes", .nat m.nodes),
    ("total_definitions", .nat m.definitions),
    ("avg_cyclomatic_complexity", .number m.meanComplexity.render),
    ("max_cyclomatic_complexity", .nat m.greatestComplexity),
    ("cyclomatic_distribution", m.bands.toJson)]

end ModuleMetrics

/-- The measures of a document. -/
structure Analysis where
  total : ModuleMetrics
  methods : List MethodMetrics
deriving DecidableEq

/-- The measures as a record. -/
def Analysis.toJson (a : Analysis) : Json :=
  .record [("module_metrics", a.total.toJson),
    ("method_metrics", .array (a.methods.map MethodMetrics.toJson))]

/-- A method that cannot be analyzed. -/
structure AnalysisError where
  method : String
  cause : DataflowError

/-- The failure in words. -/
def AnalysisError.message (e : AnalysisError) : String :=
  "analyzing method " ++ e.method ++ ": " ++ e.cause.message

namespace Arena

/-- The name of a method after the name of the class around it, if there is one. -/
def qualifiedName (a : Arena) (id : Nat) : String :=
  let name :=
    match a.kind? id with
    | some (.methodDecl name _ _) => name
    | _ => "?"
  match a.enclosingClass? id with
  | some className => className ++ "." ++ name
  | none => name

/-- Number of parameters of a method. -/
def parameterCount (a : Arena) (id : Nat) : Nat :=
  ((a.childrenOf id).filter fun c =>
    match a.kind? c with
    | some (.parameter ..) => true
    | _ => false).length

/-- Measures a method over a source. -/
def methodMetrics (a : Arena) (source : Source) (conditionUses : Bool) (id : Nat) :
    Except AnalysisError MethodMetrics :=
  match MethodFlow.analyze a conditionUses id with
  | .error e => .error ⟨a.qualifiedName id, e⟩
  | .ok m => .ok {
      name := a.qualifiedName id
      line := ((a.subtree? id).map fun t => (source.positionAt t.span.start).line).getD 1
      parameters := a.parameterCount id
      nodes := m.graph.size
      edges := m.graph.edgeCount
      exits := m.graph.leaves.length
      loops := m.graph.loopCount
      complexity := m.graph.cyclomatic
      definitions := m.definitions.size
      uses := m.uses.size
      reachingVisits := m.reaching.visits
      livenessVisits := m.liveness.visits }

end Arena

namespace Document

/-- Measures all methods; the first one that cannot be analyzed fails. -/
def analyze (d : Document) (conditionUses : Bool) : Except AnalysisError Analysis := do
  let arena := d.arena
  let ms ← d.tree.methods.mapM (arena.methodMetrics d.source conditionUses)
  return ⟨.ofMethods ms, ms⟩

end Document

end SharpMutants
