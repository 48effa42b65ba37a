import SharpMutants.Mutation.Rewrite
import SharpMutants.Check.Checker

/-!
# Mutants

A mutant is a document in which one node is rewritten.  `mutants` walks over the
nodes in order.  A node inside a method is rewritten under the data flow of that
method, any other node under none; the first mutator of the list that applies to
the node makes its rewrites, and a comment may mark them.  A rewrite that gives the
document its own shape or that of an earlier mutant makes no mutant.
-/

namespace SharpMutants

/-- A document with one node rewritten. -/
structure Mutant where
  /-- The document before. -/
  original : Document
  /-- The number of the rewritten node. -/
  target : Nat
  /-- The subtree that the node becomes. -/
  new : Tree
  family : Family
  /-- The method around the node. -/
  method : Option String
  /-- Where the node begins. -/
  position : Text.Position
  summary : String

namespace Mutant

/-- The document after. -/
def document (m : Mutant) : Document := m.original.put m.target m.new

/-- Place, family and summary in one line. -/
def description (m : Mutant) : String :=
  toString m.position.line ++ ":" ++ toString m.position.column ++ " " ++ m.family.name ++ ": " ++
    m.summary

/-- Whether a compiler accepts a mutant. -/
def isValid (compiler : Compiler) (m : Mutant) : Bool :=
  Diagnostics.accepted (compiler m.document)

end Mutant

/-- How mutants are made. -/
structure MutationPlan where
  mutators : List Mutator
  /-- The text of the comment that marks a rewritten node. -/
  marker : Option String
  /-- Whether reads in conditions count for liveness. -/
  conditionUses : Bool

/-- The data flow of a method, and the number after its last node. -/
structure MethodScope where
  stop : Nat
  flow : MethodFlow

/-- A rewrite of a node by a mutator. -/
structure Proposal where
  target : Nat
  /-- The subtree at the node. -/
  old : Tree
  mutator : Mutator
  rewrite : Rewrite

namespace MutationPlan

/-- The scope at a node, given the one at the node before: a method opens one, and it ends
after its last node. -/
def enter (p : MutationPlan) (a : Arena) (scope : Option MethodScope) (id : Nat) (t : Tree) :
    Except MutationError (Option MethodScope) :=
  if t.kind.isMethod then
    match MethodFlow.analyze a p.conditionUses id with
    | .ok flow => .ok (some ⟨id + t.size, flow⟩)
    | .error e => .error (.dataflow e)
  else .ok (scope.filter fun s => id < s.stop)

/-- The proposals for a node. -/
def proposalsAt (p : MutationPlan) (a : Arena) (flow : Option MethodFlow) (id : Nat)
    (t : Tree) : Except MutationError (List Proposal) :=
  match Mutator.first? p.mutators flow id t.kind with
  | none => .ok []
  | some m => do return (← m.rewrites a flow id t).map fun r => ⟨id, t, m, r⟩

/-- The proposals for the nodes of a list, the scope being that of the node before. -/
def proposalsFrom (p : MutationPlan) (a : Arena) (scope : Option MethodScope) :
    List (Nat × Tree) → Except MutationError (List Proposal)
  | [] => .ok []
  | (id, t) :: rest => do
    let scope ← p.enter a scope id t
    let here ← p.proposalsAt a (scope.map MethodScope.flow) id t
    return here ++ (← p.proposalsFrom a scope rest)

/-- The proposals for a document with a given flat view, by node and then in the order of the
mutator. -/
def proposals (p : MutationPlan) (d : Document) (a : Arena) :
    Except MutationError (List Proposal) :=
  p.proposalsFrom a none d.tree.numbered

/-- The subtree that a proposal puts in the place of the old one. -/
def newTree (p : MutationPlan) (r : Proposal) : Tree :=
  (r.rewrite.graft.withTrailing p.marker).toTree r.old.span

/-- The mutant of a proposal for a document with a given flat view. -/
def mutantOf (p : MutationPlan) (d : Document) (a : Arena) (r : Proposal) : Mutant where
  original := d
  target := r.target
  new := p.newTree r
  family := r.mutator.family
  method := a.enclosingMethod? r.target
  position := d.position r.old
  summary := r.rewrite.summary

/-- Shapes of documents: by the place where they part from a given shape, what they have from
there on. -/
abbrev Shapes := Table (List (List (Kind × Nat)))

/-- Only the given shape, which parts from itself at its end. -/
def Shapes.ofOriginal (original : List (Kind × Nat)) : Shapes :=
  (∅ : Shapes).insert original.length [[]]

/-- The length of the common start of a list with another, and what it has after that. -/
def parting {α : Type} [BEq α] : List α → List α → Nat × List α
  | a :: as, b :: bs =>
    if a == b then
      let (n, rest) := parting as bs
      (n + 1, rest)
    else (0, a :: as)
  | as, _ => (0, as)

/-- The shapes with the one that a proposal gives a document of a given shape, unless it is
among them.  The shape stays as it is up to the target and after the old subtree. -/
def addShape? (p : MutationPlan) (original : List (Kind × Nat)) (seen : Shapes) (r : Proposal) :
    Option Shapes :=
  let changed := (p.newTree r).shape ++ original.drop (r.target + r.old.size)
  let (start, rest) := parting changed (original.drop r.target)
  let known := (seen[r.target + start]?).getD []
  if rest ∈ known then none else some (seen.insert (r.target + start) (rest :: known))

/-- The proposals of a list that give a document of a given shape one that is not among those
seen and not that of one before. -/
def fresh (p : MutationPlan) (original : List (Kind × Nat)) (seen : Shapes) :
    List Proposal → List Proposal
  | [] => []
  | r :: rs =>
    match p.addShape? original seen r with
    | some seen => r :: p.fresh original seen rs
    | none => p.fresh original seen rs

/-- The mutants of a document: one for each proposal that changes the shape of the document
and is not made already. -/
def mutants (p : MutationPlan) (d : Document) : Except MutationError (List Mutant) := do
  let arena := d.arena
  let original := d.tree.shape
  let proposals ← p.proposals d arena
  return (p.fresh original (.ofOriginal original) proposals).map (p.mutantOf d arena)

end MutationPlan

end SharpMutants
