import SharpMutants.Dataflow.Fixpoint
import SharpMutants.Dataflow.Steps

/-!
# Definitions and uses of variables

A step defines the variable on the left of the first assignment in it, or else
the variables of the declaration that it is.  It uses the names in the value of
its first assignment, and the target too if the assignment is compound; in a
declaration, the names in the initializers; in any other step, all names.
Conditions count as uses only on demand.

Reaching definitions flow forward: a definition of a name ends the others of
that name.  Live uses flow backward: a definition of a name ends its uses.
-/

namespace SharpMutants

namespace Variables

/-- The identifiers at and below a node. -/
def identifiersIn (id : Nat) (t : Tree) : List Fact :=
  (t.subtrees.zipIdx id).filterMap fun (s, n) =>
    match s.kind with
    | .identifier name => some ⟨n, name⟩
    | _ => none

/-- The first assignment at or below a node, with its number. -/
def firstAssignment? (id : Nat) (t : Tree) : Option (Nat × Tree) :=
  (t.subtrees.zipIdx id).findSome? fun (s, n) =>
    match s.kind with
    | .assignment _ => some (n, s)
    | _ => none

/-- The name that an expression is, in parentheses or not. -/
def nameOf? : Tree → Option String
  | .node d cs =>
    match d.kind, cs with
    | .parenthesized, inner :: _ => nameOf? inner
    | .identifier name, _ => some name
    | _, _ => none

/-- The declaration that a step is. -/
def declaration? (step : Nat) (t : Tree) : Option (Nat × Tree) :=
  match t.kind, t.children with
  | .localDeclaration, declaration :: _ => some (step + 1, declaration)
  | .variableDeclaration _, _ => some (step, t)
  | _, _ => none

/-- The names that a declaration declares. -/
def declaredNames (t : Tree) : List String :=
  t.children.filterMap fun c =>
    match c.kind with
    | .variableDeclarator name => some name
    | _ => none

/-- The definitions that a step generates. -/
def definitions (step : Nat) (t : Tree) : Facts :=
  match firstAssignment? step t with
  | some (site, assignment) =>
    match assignment.children.head?.bind nameOf? with
    | some name => .ofList [⟨site, name⟩]
    | none => .empty
  | none =>
    match declaration? step t with
    | some (_, declaration) => .ofList ((declaredNames declaration).map fun name => ⟨step, name⟩)
    | none => .empty

/-- The identifiers below the children of the children of a node. -/
def initializerNames (id : Nat) (t : Tree) : List Fact :=
  (Tree.numberFrom (id + 1) t.children).flatMap fun (n, c) =>
    (Tree.numberFrom (n + 1) c.children).flatMap fun (m, init) => identifiersIn m init

/-- The uses of an assignment at a node. -/
def assignmentUses (site : Nat) (t : Tree) : List Fact :=
  let isCompound :=
    match t.kind with
    | .assignment op => op.isCompound
    | _ => false
  match Tree.numberFrom (site + 1) t.children with
  | (n, target) :: (m, value) :: _ =>
    identifiersIn m value ++ if isCompound then identifiersIn n target else []
  | [(n, target)] => if isCompound then identifiersIn n target else []
  | [] => []

/-- The uses of a step.  A condition has uses only if they are asked for. -/
def uses (conditionUses isCondition : Bool) (step : Nat) (t : Tree) : Facts :=
  .ofList <|
    if isCondition then if conditionUses then identifiersIn step t else []
    else
      match firstAssignment? step t with
      | some (site, assignment) => assignmentUses site assignment
      | none =>
        match declaration? step t with
        | some (n, declaration) => initializerNames n declaration
        | none => identifiersIn step t

end Variables

namespace Arena

/-- The definitions that the step at a node generates. -/
def definitionsAt (a : Arena) (step : Nat) : Facts :=
  match a.subtree? step with
  | some t => Variables.definitions step t
  | none => .empty

/-- The uses of the step at a node. -/
def usesAt (a : Arena) (conditionUses : Bool) (step : Nat) : Facts :=
  match a.subtree? step with
  | some t => Variables.uses conditionUses (a.isCondition step) step t
  | none => .empty

end Arena

namespace Variables

/-- The facts that a table has for a step. -/
def factsAt (t : Table Facts) (step : Nat) : Facts := (t[step]?).getD .empty

/-- The names that a step defines. -/
def namesDefined (generated : Table Facts) (step : Nat) : List String :=
  (factsAt generated step).toList.map Fact.name

/-- Which definitions reach which steps, given the definitions of every step. -/
def reachingProblem (generated : Table Facts) : FlowProblem Fact String where
  backward := false
  initial := .empty
  bottom := .empty
  generates := factsAt generated
  subject := Fact.name
  kills := namesDefined generated

/-- Which uses are live at which steps, given the definitions and the uses of every step. -/
def livenessProblem (generated used : Table Facts) : FlowProblem Fact String where
  backward := true
  initial := .empty
  bottom := .empty
  generates := factsAt used
  subject := Fact.name
  kills := namesDefined generated

end Variables

end SharpMutants
