import Std.Data.TreeSet
import SharpMutants.Dataflow.Table

/-!
# Control flow graphs

A flow graph has an entry, if any step runs at all, and for every step the steps
that may run right after it.  Steps stand in the order in which they came into
the graph, successors in the order of their edges; an edge counts once, and it
brings its ends into the graph, the target first.

Depth-first search from the entry gives the postorder: a node comes after all
that were found from it.  `successors_transposed` says that the graph with its
edges turned round leads from a node to its predecessors.
-/

namespace SharpMutants

/-- A control flow graph over node numbers. -/
structure FlowGraph where
  entry : Option Nat
  /-- The nodes, the one built last in front. -/
  built : List Nat
  /-- The successors of every node. -/
  next : Table (List Nat)

/-- One step of building a graph. -/
inductive GraphEdit where
  | node (node : Nat)
  | edge (source target : Nat)
  | entry (node : Option Nat)
deriving DecidableEq

namespace FlowGraph

/-- The graph without nodes. -/
def empty : FlowGraph := ⟨none, [], ∅⟩

/-- The successors of a node; none for a node that is not there. -/
def successors (g : FlowGraph) (n : Nat) : List Nat := (g.next[n]?).getD []

/-- Whether a node is in the graph. -/
def contains (g : FlowGraph) (n : Nat) : Bool := g.next.contains n

/-- The nodes, in the order in which they were built. -/
def nodes (g : FlowGraph) : List Nat := g.built.reverse

/-- Number of nodes. -/
def size (g : FlowGraph) : Nat := g.built.length

/-- The graph with a node. -/
def addNode (g : FlowGraph) (n : Nat) : FlowGraph :=
  if g.contains n then g else { g with built := n :: g.built, next := g.next.insert n [] }

/-- The graph with an edge. -/
def addEdge (g : FlowGraph) (source target : Nat) : FlowGraph :=
  let g := (g.addNode target).addNode source
  let targets := g.successors source
  if targets.contains target then g
  else { g with next := g.next.insert source (targets ++ [target]) }

/-- One step of building. -/
def apply (g : FlowGraph) : GraphEdit → FlowGraph
  | .node n => g.addNode n
  | .edge source target => g.addEdge source target
  | .entry n => { g with entry := n }

/-- The graph that a list of steps builds. -/
def build (edits : List GraphEdit) : FlowGraph := edits.foldl apply empty

/-- The edges, by source in the order of the nodes. -/
def edges (g : FlowGraph) : List (Nat × Nat) :=
  g.nodes.flatMap fun n => (g.successors n).map fun m => (n, m)

/-- Number of edges. -/
def edgeCount (g : FlowGraph) : Nat := g.edges.length

/-- The nodes without successors. -/
def leaves (g : FlowGraph) : List Nat := g.nodes.filter fun n => (g.successors n).isEmpty

/-- The sources of the edges to a node, in the order of the edges. -/
def sourcesOf (edges : List (Nat × Nat)) (n : Nat) : List Nat :=
  (edges.filter fun (_, target) => target == n).map Prod.fst

/-- The nodes with an edge to a node, in the order of the edges. -/
def predecessors (g : FlowGraph) (n : Nat) : List Nat := sourcesOf g.edges n

/-- The sources of the edges of a list by target, with an entry for every node of a list. -/
def sourceTable (ns : List Nat) (edges : List (Nat × Nat)) : Table (List Nat) :=
  edges.foldr (fun (source, target) t => t.insert target (source :: (t[target]?).getD []))
    (Table.tabulate ns fun _ => [])

/-- The table of sources has for each node the sources of the edges that lead to it. -/
theorem getElem?_sourceTable (ns : List Nat) (edges : List (Nat × Nat)) (n : Nat) :
    ((sourceTable ns edges)[n]?).getD [] = sourcesOf edges n := by
  induction edges with
  | nil =>
      rw [sourceTable, List.foldr_nil, Table.getElem?_tabulate]
      split <;> rfl
  | cons e es ih =>
      obtain ⟨source, target⟩ := e
      have h : sourceTable ns ((source, target) :: es) =
          (sourceTable ns es).insert target (source :: ((sourceTable ns es)[target]?).getD []) :=
        rfl
      rw [h, Std.TreeMap.getElem?_insert]
      by_cases ht : target = n
      · subst ht
        simp [sourcesOf, ih]
      · simp [sourcesOf, ht, ih]

/-- The graph with its edges turned round. -/
def transposed (g : FlowGraph) : FlowGraph := { g with next := sourceTable g.nodes g.edges }

/-- In the transposed graph the successors of a node are its predecessors. -/
theorem successors_transposed (g : FlowGraph) (n : Nat) :
    g.transposed.successors n = g.predecessors n :=
  getElem?_sourceTable g.nodes g.edges n

/-- A depth-first search: the nodes found, and those finished, the last one first. -/
structure Search where
  found : Std.TreeSet Nat
  finished : List Nat

/-- Searches from a node that has just been found, at most `bound` nodes deep, when `next`
gives the nodes after a node. -/
def searchFrom (next : Nat → List Nat) : Nat → Search → Nat → Search
  | 0, s, _ => s
  | bound + 1, s, n =>
    let s := (next n).foldl
      (fun s m =>
        if s.found.contains m then s
        else searchFrom next bound { s with found := s.found.insert m } m) s
    { s with finished := n :: s.finished }

/-- The search from the entry.  A path of the search meets no node twice, so the bound is
never met. -/
def search (g : FlowGraph) : Search :=
  match g.entry with
  | none => ⟨∅, []⟩
  | some n => searchFrom g.successors (g.size + 1) ⟨(∅ : Std.TreeSet Nat).insert n, []⟩ n

/-- The nodes reachable from the entry, each before all that finished earlier in the search. -/
def reversePostorder (g : FlowGraph) : List Nat := g.search.finished

/-- The nodes reachable from the entry, in the order in which the search finishes them. -/
def postorder (g : FlowGraph) : List Nat := g.reversePostorder.reverse

/-- Cyclomatic complexity: one for each independent way through, counting an exit for a graph
that has none. -/
def cyclomatic (g : FlowGraph) : Nat :=
  if g.built.isEmpty then 1
  else max 1 (g.edgeCount + 1 + max g.leaves.length 1 - g.size)

end FlowGraph

end SharpMutants
