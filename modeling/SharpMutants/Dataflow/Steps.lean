import SharpMutants.Syntax.Arena
import SharpMutants.Dataflow.FlowGraph

/-!
# The steps of a method

A step is what runs at once: a plain statement or a return as a whole, the
condition of an `if` or `while`, and the three parts in the head of a `for`.
`firstStep?` names the step with which a statement begins.  `statementEdits`
builds the graph of a statement, given its node number and the step that runs
after it, if there is one: a block hands each statement the first step of those
that follow it, a loop hands its body the step back to itself, and a return goes
nowhere.
-/

namespace SharpMutants

/-- Failures of an analysis. -/
inductive DataflowError where
  | unanalyzedNode (node : Nat)
  | notAMethod (node : Nat)
deriving DecidableEq

/-- The failure in words. -/
def DataflowError.message : DataflowError → String
  | unanalyzedNode n => "node #" ++ toString n ++ " is not part of the analyzed method"
  | notAMethod n => "node #" ++ toString n ++ " is not a method declaration"

namespace Steps

mutual

/-- The step with which the statement at a node begins. -/
def firstStep? (id : Nat) : Tree → Option Nat
  | .node d cs =>
    match d.kind with
    | .block => firstStepOf? (id + 1) cs
    | .ifStatement | .whileStatement | .forStatement => if cs.isEmpty then none else some (id + 1)
    | .localDeclaration | .expressionStatement | .emptyStatement | .returnStatement => some id
    | _ => none

/-- The step with which a row of statements begins, the first of them at a node. -/
def firstStepOf? (id : Nat) : List Tree → Option Nat
  | [] => none
  | c :: cs => (firstStep? id c).or (firstStepOf? (id + c.size) cs)

end

/-- An edge to a step, if there is one. -/
def edgeTo (source : Nat) : Option Nat → List GraphEdit
  | none => []
  | some target => [.edge source target]

mutual

/-- How to build the graph of the statement at a node that is followed by a step. -/
def statementEdits (exit : Option Nat) (id : Nat) : Tree → List GraphEdit
  | .node d cs =>
    match d.kind, cs with
    | .block, body => statementsEdits exit (id + 1) body
    | .ifStatement, cond :: thenBranch :: rest =>
      let test := id + 1
      let first := test + cond.size
      let head := .node test :: edgeTo test ((firstStep? first thenBranch).or exit)
      match rest with
      | .node clause (other :: more) :: _ =>
        let second := first + thenBranch.size + 1
        let after :=
          if clause.kind = .block then (firstStepOf? (second + other.size) more).or exit else exit
        head ++ edgeTo test ((firstStep? second other).or exit) ++
          statementEdits exit first thenBranch ++ statementEdits after second other
      | _ => head ++ edgeTo test exit ++ statementEdits exit first thenBranch
    | .whileStatement, cond :: body :: _ =>
      let test := id + 1
      let first := test + cond.size
      .node test :: .edge test ((firstStep? first body).getD test) :: edgeTo test exit ++
        statementEdits (some test) first body
    | .forStatement, [init, cond, step, body] =>
      let start := id + 1
      let test := start + init.size
      let next := test + cond.size
      let first := next + step.size
      [.node start, .node test, .node next, .edge start test,
        .edge test ((firstStep? first body).getD next)] ++ edgeTo test exit ++
        .edge next test :: statementEdits (some next) first body
    | .returnStatement, _ => [.node id]
    | .localDeclaration, _ | .expressionStatement, _ | .emptyStatement, _ =>
      .node id :: edgeTo id exit
    | _, _ => []

/-- How to build the graph of a row of statements that is followed by a step. -/
def statementsEdits (exit : Option Nat) (id : Nat) : List Tree → List GraphEdit
  | [] => []
  | c :: cs =>
    statementEdits ((firstStepOf? (id + c.size) cs).or exit) id c ++
      statementsEdits exit (id + c.size) cs

end

/-- The graph of the statement at a node that is followed by a step. -/
def graph (exit : Option Nat) (id : Nat) (t : Tree) : FlowGraph :=
  .build (.entry (firstStep? id t) :: statementEdits exit id t)

end Steps

namespace Arena

/-- The first step after a statement in the block around it. -/
def nextStep? (a : Arena) (id : Nat) : Option Nat := do
  let p ← a.parent? id
  let t ← a.subtree? p
  if t.kind = .block then
    ((t.children |> Tree.numberFrom (p + 1)).filter fun (n, _) => id < n).findSome?
      fun (n, s) => Steps.firstStep? n s
  else none

/-- The graph of the statement at a node, within the block around it. -/
def bodyGraph (a : Arena) (id : Nat) : FlowGraph :=
  match a.subtree? id with
  | some t => Steps.graph (a.nextStep? id) id t
  | none => .empty

/-- The graph of a method: of its last child, which is its body. -/
def methodGraph (a : Arena) (id : Nat) : Except DataflowError FlowGraph :=
  match a.subtree? id with
  | some t =>
    match t.kind.isMethod, (Tree.numberFrom (id + 1) t.children).getLast? with
    | true, some (n, body) => .ok (Steps.graph none n body)
    | _, _ => .error (.notAMethod id)
  | none => .error (.notAMethod id)

end Arena

end SharpMutants
