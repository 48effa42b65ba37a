import SharpMutants.Dataflow.Variables

/-!
# The data flow of a method

The analysis of a method holds its graph, the definitions that reach its steps,
the uses that are live there, and two indexes: from every identifier in a step
to that step, and from every place of a definition to the step that makes it.
-/

namespace SharpMutants

/-- Where an identifier is used. -/
structure UseSite where
  step : Nat
  name : String
deriving DecidableEq

/-- The data flow of one method. -/
structure MethodFlow where
  method : Nat
  graph : FlowGraph
  /-- The definitions that each step generates. -/
  generated : Table Facts
  /-- The uses of each step. -/
  used : Table Facts
  reaching : FlowSolution Fact
  liveness : FlowSolution Fact
  uses : Table UseSite
  definitionSteps : Table Nat
  definitions : Facts

namespace MethodFlow

/-- The index of the identifiers in the steps of a graph. -/
def useIndex (a : Arena) (g : FlowGraph) : Table UseSite :=
  g.nodes.foldl (fun index step =>
    match a.subtree? step with
    | some t =>
      (Variables.identifiersIn step t).foldl
        (fun index f => index.insert f.site ⟨step, f.name⟩) index
    | none => index) ∅

/-- The index of the definitions that the steps of a graph generate. -/
def definitionIndex (g : FlowGraph) (generated : Table Facts) : Table Nat :=
  g.nodes.foldl (fun index step =>
    (Variables.factsAt generated step).toList.foldl
      (fun index f => index.insert f.site step) index) ∅

/-- Analyzes a method. -/
def analyze (a : Arena) (conditionUses : Bool) (method : Nat) :
    Except DataflowError MethodFlow := do
  let g ← a.methodGraph method
  let generated := Table.tabulate g.nodes a.definitionsAt
  let used := Table.tabulate g.nodes (a.usesAt conditionUses)
  return {
    method := method
    graph := g
    generated := generated
    used := used
    reaching := (Variables.reachingProblem generated).solve g
    liveness := (Variables.livenessProblem generated used).solve g
    uses := useIndex a g
    definitionSteps := definitionIndex g generated
    definitions := .unions (g.nodes.map (Variables.factsAt generated)) }

/-- The definitions that reach a step. -/
def reachingIn? (m : MethodFlow) (step : Nat) : Option Facts := m.reaching.before[step]?

/-- The definitions that leave a step. -/
def reachingOut? (m : MethodFlow) (step : Nat) : Option Facts := m.reaching.after[step]?

/-- The uses that are live before a step. -/
def liveIn? (m : MethodFlow) (step : Nat) : Option Facts := m.liveness.before[step]?

/-- The uses that are live after a step. -/
def liveOut? (m : MethodFlow) (step : Nat) : Option Facts := m.liveness.after[step]?

/-- The step that an identifier is part of. -/
def stepOfUse? (m : MethodFlow) (use : Nat) : Option Nat := m.uses[use]?.map UseSite.step

/-- Whether the analysis covers an identifier. -/
def covers (m : MethodFlow) (use : Nat) : Bool := m.uses[use]?.isSome

/-- The definitions that reach the step of an identifier. -/
def reachingDefinitions (m : MethodFlow) (use : Nat) : Except DataflowError Facts :=
  match m.uses[use]?.bind fun u => m.reachingIn? u.step with
  | some facts => .ok facts
  | none => .error (.unanalyzedNode use)

/-- The definitions of the variable of an identifier that reach its step. -/
def definitionsOfUse (m : MethodFlow) (use : Nat) : Except DataflowError (List Fact) :=
  match m.uses[use]? with
  | some u => (m.reachingDefinitions use).map fun facts => facts.named u.name
  | none => .error (.unanalyzedNode use)

/-- The uses that are live after the step of a definition. -/
def liveOutOf (m : MethodFlow) (definition : Nat) : Except DataflowError Facts :=
  match m.definitionSteps[definition]?.bind m.liveOut? with
  | some facts => .ok facts
  | none => .error (.unanalyzedNode definition)

/-- The uses of a name that are live after the step of a definition. -/
def usesOfDefinition (m : MethodFlow) (definition : Nat) (name : String) :
    Except DataflowError (List Fact) :=
  (m.liveOutOf definition).map fun facts => facts.named name

end MethodFlow

end SharpMutants
