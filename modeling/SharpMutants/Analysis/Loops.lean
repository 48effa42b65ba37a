import SharpMutants.Dataflow.FlowGraph

/-!
# Loops of a flow graph

Two steps are on one cycle when each can run after the other.  A loop is a class
of steps that are on one cycle; a step that follows itself makes a class of its
own, a step that cannot run again belongs to no loop.

The step of a loop with the least number is its head.  Some edge of the loop leads
to the head from a step that does not come before it, and no way round the loop
meets a step before the head.  So the heads are tried in ascending order, and a
loop is searched for among the steps from its head on.
-/

namespace SharpMutants

namespace FlowGraph

/-- The nodes that an edge leads to from a node that does not come before them. -/
def heads (g : FlowGraph) : Std.TreeSet Nat :=
  g.edges.foldl (fun found (n, m) => if m ≤ n then found.insert m else found) ∅

/-- The nodes from which edges between nodes from `head` on lead to `head`, given the graph
turned round. -/
def leadingTo (reversed : FlowGraph) (head : Nat) : Std.TreeSet Nat :=
  (searchFrom (fun n => (reversed.successors n).filter (head ≤ ·)) (reversed.size + 1) ⟨∅, []⟩
    head).found

/-- The nodes that edges lead to from `head` and back from there, between nodes from `head` on,
given the graph and the graph turned round.  The head is one of them if it is on a cycle. -/
def ring (g reversed : FlowGraph) (head : Nat) : Std.TreeSet Nat :=
  let back := leadingTo reversed head
  (searchFrom (fun n => (g.successors n).filter back.contains) (g.size + 1) ⟨∅, []⟩ head).found

/-- The loops found so far and the one of a head, if it is on a cycle and in none of them. -/
def addLoop (g reversed : FlowGraph) (loops : List (Std.TreeSet Nat)) (head : Nat) :
    List (Std.TreeSet Nat) :=
  if loops.any fun loop => loop.contains head then loops
  else
    let loop := g.ring reversed head
    if loop.contains head then loop :: loops else loops

/-- The loops, the one with the greatest head in front. -/
def loops (g : FlowGraph) : List (Std.TreeSet Nat) :=
  g.heads.toList.foldl (g.addLoop g.transposed) []

/-- Number of loops. -/
def loopCount (g : FlowGraph) : Nat := g.loops.length

end FlowGraph

end SharpMutants
