import SharpMutants.Dataflow.FlowGraph

/-!
# Depth-first search by stack

A flow graph can be searched without recursion.  A stack holds the nodes on the way from
the entry to where the search is, each with the number of its successors that have been
looked at.  A step takes the node on top of the stack: it looks at the next successor,
which goes onto the stack if it is new, or finishes the node if there is none left.  The
search is over when the stack is empty.
-/

namespace SharpMutants

namespace FlowGraph

/-- A search by stack under way. -/
structure StackSearch where
  found : Std.TreeSet Nat
  /-- The nodes on the way, the last one in front, with how many successors are looked at. -/
  stack : List (Nat × Nat)
  /-- The nodes finished, the last one in front. -/
  finished : List Nat

namespace StackSearch

/-- The search that has just found its first node. -/
def start (n : Nat) : StackSearch := ⟨(∅ : Std.TreeSet Nat).insert n, [(n, 0)], []⟩

/-- A step of the search when `next` gives the nodes after a node; none if it is over. -/
def step? (next : Nat → List Nat) (s : StackSearch) : Option StackSearch :=
  match s.stack with
  | [] => none
  | (n, looked) :: stack =>
    match (next n)[looked]? with
    | none => some ⟨s.found, stack, n :: s.finished⟩
    | some m =>
      if s.found.contains m then some ⟨s.found, (n, looked + 1) :: stack, s.finished⟩
      else some ⟨s.found.insert m, (m, 0) :: (n, looked + 1) :: stack, s.finished⟩

/-- A search goes to its end in a number of steps. -/
inductive Runs (next : Nat → List Nat) : Nat → StackSearch → StackSearch → Prop
  | over {s : StackSearch} (h : s.step? next = none) : Runs next 0 s s
  | step {k : Nat} {s t u : StackSearch} (h : s.step? next = some t) (rest : Runs next k t u) :
      Runs next (k + 1) s u

end StackSearch

end FlowGraph

end SharpMutants
