import SharpMutants.Dataflow.FactSet
import SharpMutants.Dataflow.FlowGraph

/-!
# Solving flow equations

A flow problem gives every step the facts that it generates and the subjects
about which it kills all facts.  Facts arrive at a step from its neighbours
against the direction of the problem, joined by union; what leaves it is what
arrived without the killed facts and with the generated ones, as `mem_transfer`
says.  The initial facts arrive at the boundary: at the entry if facts flow
forward, at the steps without successors if they flow backward.

`solve` works through a queue of steps.  It begins with all steps, and a step
whose leaving facts have changed puts its neighbours in the direction of the
flow back into the queue.  Every fact changes sides at a step at most once, so
the queue is empty after at most one visit for each step of the first queue and
one for each edge and each fact.
-/

namespace SharpMutants

open Std

/-- A flow problem over sets of facts about subjects. -/
structure FlowProblem (α κ : Type) [Ord α] where
  backward : Bool
  initial : FactSet α
  bottom : FactSet α
  generates : Nat → FactSet α
  /-- What a fact is about. -/
  subject : α → κ
  /-- The subjects about which a step kills all facts. -/
  kills : Nat → List κ

/-- The facts before and after every step, and the number of visits to steps. -/
structure FlowSolution (α : Type) [Ord α] where
  before : Table (FactSet α)
  after : Table (FactSet α)
  visits : Nat

namespace FlowProblem

variable {α κ : Type} [Ord α] [DecidableEq κ]

/-- The facts that are left of those that arrive at a step. -/
def spared (p : FlowProblem α κ) (n : Nat) (facts : FactSet α) : FactSet α :=
  let killed := p.kills n
  if killed.isEmpty then facts else facts.filter fun a => !killed.contains (p.subject a)

/-- A fact is spared at a node unless its subject is killed there. -/
theorem mem_spared (p : FlowProblem α κ) (n : Nat) (facts : FactSet α) (x : α) :
    x ∈ p.spared n facts ↔ x ∈ facts ∧ p.subject x ∉ p.kills n := by
  unfold spared
  by_cases h : (p.kills n).isEmpty
  · have hnil : p.kills n = [] := List.isEmpty_iff.mp h
    simp [hnil]
  · simp [h, FactSet.mem_filter]

variable [TransOrd α] [LawfulEqOrd α]

/-- What leaves a step at which facts arrive. -/
def transfer (p : FlowProblem α κ) (n : Nat) (facts : FactSet α) : FactSet α :=
  (p.spared n facts).union (p.generates n)

/-- **What leaves a node** is what it generates, and what comes in and is not killed there. -/
theorem mem_transfer (p : FlowProblem α κ) (n : Nat) (facts : FactSet α) (x : α) :
    x ∈ p.transfer n facts ↔ (x ∈ facts ∧ p.subject x ∉ p.kills n) ∨ x ∈ p.generates n := by
  rw [transfer, FactSet.mem_union, mem_spared]

variable [DecidableEq α]

/-- The steps from which facts arrive at a step, given the graph and the graph turned round. -/
def sources (p : FlowProblem α κ) (g reversed : FlowGraph) (n : Nat) : List Nat :=
  if p.backward then g.successors n else reversed.successors n

/-- The steps at which the facts leaving a step arrive, given the graph and the graph turned
round. -/
def targets (p : FlowProblem α κ) (g reversed : FlowGraph) (n : Nat) : List Nat :=
  if p.backward then reversed.successors n else g.successors n

/-- Whether the initial facts arrive at a step. -/
def isBoundary (p : FlowProblem α κ) (g : FlowGraph) (n : Nat) : Bool :=
  if p.backward then (g.successors n).isEmpty else g.entry == some n

/-- The state of the work: the facts that arrive at and leave every step, the queue, and the
number of visits. -/
structure Work (α : Type) [Ord α] where
  arriving : Table (FactSet α)
  leaving : Table (FactSet α)
  queue : List Nat
  visits : Nat

/-- The facts that arrive at a step. -/
def arrivals (p : FlowProblem α κ) (g reversed : FlowGraph) (w : Work α) (n : Nat) : FactSet α :=
  let incoming := (p.sources g reversed n).filterMap (w.leaving[·]?) ++
    if p.isBoundary g n then [p.initial] else []
  if incoming.isEmpty then p.bottom else .unions incoming

/-- Puts steps at the end of a queue, unless they wait there already. -/
def enqueue (queue : List Nat) (steps : List Nat) : List Nat :=
  steps.foldl (fun q n => if q.contains n then q else q ++ [n]) queue

/-- Visits a step, the rest of the queue being as given. -/
def visit (p : FlowProblem α κ) (g reversed : FlowGraph) (w : Work α) (n : Nat)
    (rest : List Nat) : Work α :=
  let facts := p.arrivals g reversed w n
  let result := p.transfer n facts
  let arriving := w.arriving.insert n facts
  if w.leaving[n]? = some result then ⟨arriving, w.leaving, rest, w.visits + 1⟩
  else
    ⟨arriving, w.leaving.insert n result, enqueue rest (p.targets g reversed n), w.visits + 1⟩

/-- Visits steps until the queue is empty, at most a given number of times. -/
def work (p : FlowProblem α κ) (g reversed : FlowGraph) : Nat → Work α → Work α
  | 0, w => w
  | bound + 1, w =>
    match w.queue with
    | [] => w
    | n :: rest => work p g reversed bound (p.visit g reversed w n rest)

/-- The first queue: the steps reachable from the entry in the order of the flow, then all
others. -/
def firstQueue (p : FlowProblem α κ) (g : FlowGraph) : List Nat :=
  let s := g.search
  (if p.backward then s.finished.reverse else s.finished) ++
    g.nodes.filter fun n => !s.found.contains n

/-- All facts that can occur. -/
def allFacts (p : FlowProblem α κ) (g : FlowGraph) : FactSet α :=
  .unions (p.initial :: p.bottom :: (p.firstQueue g).map p.generates)

/-- A bound on the number of visits. -/
def visitBound (p : FlowProblem α κ) (g : FlowGraph) : Nat :=
  (p.firstQueue g).length + g.edgeCount * (p.allFacts g).size

/-- The work at the beginning. -/
def start (p : FlowProblem α κ) (g : FlowGraph) : Work α :=
  let bottoms := Table.tabulate g.nodes fun _ => p.bottom
  ⟨bottoms, bottoms, p.firstQueue g, 0⟩

/-- The work at the end. -/
def finish (p : FlowProblem α κ) (g : FlowGraph) : Work α :=
  p.work g g.transposed (p.visitBound g) (p.start g)

/-- The least solution of a problem over a graph. -/
def solve (p : FlowProblem α κ) (g : FlowGraph) : FlowSolution α :=
  let w := p.finish g
  if p.backward then ⟨w.leaving, w.arriving, w.visits⟩ else ⟨w.arriving, w.leaving, w.visits⟩

end FlowProblem

end SharpMutants
