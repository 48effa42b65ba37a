import SharpMutants.Text
import SharpMutants.Syntax.Kind

/-!
# Syntax trees

A syntax tree is a rose tree.  Every node carries its kind, the byte range of
the source that it covers, the range of its own token, a flag that tells nodes
made by an edit from nodes read from the source, and the text of a comment that
follows it.

Nodes are numbered in preorder: the root is node 0, the first child of node `n`
is node `n + 1`, and every further child comes right after the last node of the
child before it.  `subtrees` lists the subtrees in this order, so the subtree at
a node is an element of that list.  Two trees have the same shape when their
preorder lists of kinds and child counts agree.

Walks over a tree put what they find in front of what comes after it, so each
node costs the same however deep it lies; the equations that proofs use are
stated beside them.  The key local fact is `shape_replaceAt`: swapping a subtree
swaps its part of the shape and nothing else.
-/

namespace SharpMutants

/-- A half-open range of byte offsets. -/
structure Span where
  start : Nat
  stop : Nat
deriving DecidableEq

namespace Span

/-- Number of bytes in a range; zero for a reversed one. -/
def length (s : Span) : Nat := s.stop - s.start

/-- A range without bytes. -/
def isEmpty (s : Span) : Bool := s.length == 0

/-- Neither end of the other range lies outside. -/
def contains (s other : Span) : Bool := decide (s.start ≤ other.start ∧ other.stop ≤ s.stop)

/-- The smallest range over two. -/
def cover (s other : Span) : Span := ⟨min s.start other.start, max s.stop other.stop⟩

end Span

/-- What a node is, apart from its children. -/
structure Node where
  kind : Kind
  /-- Source extent; for a node made by an edit, the extent of what it stands for. -/
  span : Span
  /-- The operator, name or literal inside the extent. -/
  token : Option Span
  /-- Printed in canonical form and not from the source. -/
  synthetic : Bool
  /-- Text of a comment printed right after the node. -/
  trailing : Option String
deriving DecidableEq

/-- A node with its children in order. -/
inductive Tree where
  | node (node : Node) (children : List Tree)

namespace Tree

/-- Induction over trees: the children of a node have the property. -/
theorem inductionOn {motive : Tree → Prop}
    (node : ∀ d cs, (∀ c ∈ cs, motive c) → motive (node d cs)) (t : Tree) : motive t := by
  refine Tree.rec (motive_1 := motive) (motive_2 := fun cs => ∀ c ∈ cs, motive c) node ?nil ?cons t
  case nil => exact fun c hc => nomatch hc
  case cons => exact fun c cs hc hcs => List.forall_mem_cons.mpr ⟨hc, hcs⟩

/-- The root node. -/
def root : Tree → Node
  | node d _ => d

/-- The children of the root, in order. -/
def children : Tree → List Tree
  | node _ cs => cs

/-- The kind of the root. -/
def kind (t : Tree) : Kind := t.root.kind

/-- The source extent of the root. -/
def span (t : Tree) : Span := t.root.span

mutual

/-- Number of nodes. -/
def size : Tree → Nat
  | node _ cs => 1 + sizes cs

/-- Number of nodes of the trees of a list. -/
def sizes : List Tree → Nat
  | [] => 0
  | c :: cs => c.size + sizes cs

end

mutual

/-- The subtrees of a tree in preorder, and then further trees. -/
def subtreesThen (rest : List Tree) : Tree → List Tree
  | node d cs => node d cs :: subtreesOfThen rest cs

/-- The subtrees of the trees of a list in preorder, and then further trees. -/
def subtreesOfThen (rest : List Tree) : List Tree → List Tree
  | [] => rest
  | c :: cs => c.subtreesThen (subtreesOfThen rest cs)

end

/-- All subtrees in preorder: element `n` is the subtree at node `n`. -/
def subtrees (t : Tree) : List Tree := t.subtreesThen []

/-- The subtrees of the trees of a list, in preorder. -/
def subtreesOf (cs : List Tree) : List Tree := subtreesOfThen [] cs

mutual

/-- Subtrees that are put in front of others are put in front. -/
theorem subtreesThen_eq : ∀ (rest : List Tree) (t : Tree), t.subtreesThen rest = t.subtrees ++ rest
  | rest, node d cs => by
    rw [subtrees, subtreesThen, subtreesThen, List.cons_append, subtreesOfThen_eq rest cs,
      subtreesOfThen_eq [] cs, List.append_nil]

/-- The subtrees of trees in a row that are put in front of others are put in front. -/
theorem subtreesOfThen_eq :
    ∀ (rest cs : List Tree), subtreesOfThen rest cs = subtreesOf cs ++ rest
  | rest, [] => by rw [subtreesOf, subtreesOfThen, subtreesOfThen, List.nil_append]
  | rest, c :: cs => by
    rw [subtreesOf, subtreesOfThen, subtreesOfThen, subtreesThen_eq _ c, subtreesThen_eq _ c,
      subtreesOfThen_eq rest cs, subtreesOfThen_eq [] cs, List.append_nil, List.append_assoc]

end

/-- The subtrees of a node are itself and those of its children. -/
theorem subtrees_node (d : Node) (cs : List Tree) :
    (node d cs).subtrees = node d cs :: subtreesOf cs := by
  rw [subtrees, subtreesThen, subtreesOf]

theorem subtreesOf_nil : subtreesOf [] = [] := by rw [subtreesOf, subtreesOfThen]

/-- The subtrees of trees in a row are those of each. -/
theorem subtreesOf_cons (c : Tree) (cs : List Tree) :
    subtreesOf (c :: cs) = c.subtrees ++ subtreesOf cs := by
  rw [subtreesOf, subtreesOfThen, subtreesThen_eq, subtreesOf]

mutual

/-- A tree has as many subtrees as nodes. -/
theorem length_subtrees : ∀ t : Tree, t.subtrees.length = t.size
  | node _ cs => by
    rw [subtrees_node, size, List.length_cons, length_subtreesOf cs, Nat.add_comm]

/-- Trees in a row have as many subtrees as nodes. -/
theorem length_subtreesOf : ∀ cs : List Tree, (subtreesOf cs).length = sizes cs
  | [] => by rw [subtreesOf_nil, sizes, List.length_nil]
  | c :: cs => by
    rw [subtreesOf_cons, sizes, List.length_append, length_subtrees c, length_subtreesOf cs]

end

/-- The subtree at a node. -/
def subtree? (t : Tree) (id : Nat) : Option Tree := t.subtrees[id]?

/-- All nodes with their subtrees, in preorder. -/
def numbered (t : Tree) : List (Nat × Tree) := t.subtrees.zipIdx.map fun (s, id) => (id, s)

/-- The trees of a list with their node numbers, the first being `id`. -/
def numberFrom (id : Nat) : List Tree → List (Nat × Tree)
  | [] => []
  | [c] => [(id, c)]
  | c :: cs => (id, c) :: numberFrom (id + c.size) cs

theorem numberFrom_nil (id : Nat) : numberFrom id [] = [] := by rw [numberFrom]

/-- Trees in a row are numbered by the nodes before them. -/
theorem numberFrom_cons (id : Nat) (c : Tree) (cs : List Tree) :
    numberFrom id (c :: cs) = (id, c) :: numberFrom (id + c.size) cs := by
  cases cs with
  | nil => rfl
  | cons b cs => rfl

/-- The method declarations, in preorder. -/
def methods (t : Tree) : List Nat :=
  (t.numbered.filter fun (_, s) => s.kind.isMethod).map Prod.fst

mutual

/-- The tree with the subtree at a node swapped for another, or, if the node is not there, how
far its number lies beyond the nodes of the tree. -/
def replaceOrPass (new : Tree) : Nat → Tree → Tree ⊕ Nat
  | 0, _ => .inl new
  | n + 1, node d cs =>
    match replaceAmongOrPass new n cs with
    | .inl cs => .inl (node d cs)
    | .inr beyond => .inr beyond

/-- The same for a node of the trees of a list. -/
def replaceAmongOrPass (new : Tree) : Nat → List Tree → List Tree ⊕ Nat
  | n, [] => .inr n
  | n, c :: cs =>
    match replaceOrPass new n c with
    | .inl c => .inl (c :: cs)
    | .inr n =>
      match replaceAmongOrPass new n cs with
      | .inl cs => .inl (c :: cs)
      | .inr beyond => .inr beyond

end

/-- The tree with the subtree at a node swapped for another; an unchanged tree if there is no
such node. -/
def replaceAt (new : Tree) (n : Nat) (t : Tree) : Tree :=
  match replaceOrPass new n t with
  | .inl t => t
  | .inr _ => t

/-- Swaps the subtree at a node of the trees of a list. -/
def replaceAmong (new : Tree) (n : Nat) (cs : List Tree) : List Tree :=
  match replaceAmongOrPass new n cs with
  | .inl cs => cs
  | .inr _ => cs

mutual

/-- A replacement is made in a tree that has the node, and passed on otherwise. -/
theorem replaceOrPass_eq (new : Tree) : ∀ (n : Nat) (t : Tree),
    replaceOrPass new n t = if n < t.size then .inl (replaceAt new n t) else .inr (n - t.size)
  | 0, node d cs => by
    rw [replaceOrPass, replaceAt, replaceOrPass, size, if_pos (by omega)]
  | n + 1, node d cs => by
    rw [replaceOrPass, replaceAt, replaceOrPass, replaceAmongOrPass_eq new n cs, size]
    by_cases h : n < sizes cs
    · rw [if_pos h, if_pos (by omega)]
    · have hn : n + 1 - (1 + sizes cs) = n - sizes cs := by omega
      rw [if_neg h, if_neg (by omega), hn]

/-- A replacement is made in trees in a row that have the node, and passed on otherwise. -/
theorem replaceAmongOrPass_eq (new : Tree) : ∀ (n : Nat) (cs : List Tree),
    replaceAmongOrPass new n cs =
      if n < sizes cs then .inl (replaceAmong new n cs) else .inr (n - sizes cs)
  | n, [] => by rw [replaceAmongOrPass, sizes, if_neg (by omega), Nat.sub_zero]
  | n, c :: cs => by
    rw [replaceAmongOrPass, replaceAmong, replaceAmongOrPass, replaceOrPass_eq new n c, sizes]
    by_cases hc : n < c.size
    · rw [if_pos hc, if_pos (by omega)]
    · rw [if_neg hc]
      simp only [replaceAmongOrPass_eq new (n - c.size) cs]
      by_cases h : n - c.size < sizes cs
      · rw [if_pos h, if_pos (by omega)]
      · have hn : n - (c.size + sizes cs) = n - c.size - sizes cs := by omega
        rw [if_neg h, if_neg (by omega), hn]

end

/-- Replacing the root replaces the tree. -/
theorem replaceAt_zero (new t : Tree) : replaceAt new 0 t = new := by
  cases t
  rw [replaceAt, replaceOrPass]

/-- Replacing another node replaces it among the children. -/
theorem replaceAt_succ (new : Tree) (n : Nat) (d : Node) (cs : List Tree) :
    replaceAt new (n + 1) (node d cs) = node d (replaceAmong new n cs) := by
  rw [replaceAt, replaceOrPass, replaceAmong]
  cases replaceAmongOrPass new n cs <;> rfl

theorem replaceAmong_nil (new : Tree) (n : Nat) : replaceAmong new n [] = [] := by
  rw [replaceAmong, replaceAmongOrPass]

/-- Among trees in a row a node is replaced in the one that has it. -/
theorem replaceAmong_cons (new : Tree) (n : Nat) (c : Tree) (cs : List Tree) :
    replaceAmong new n (c :: cs) =
      if n < c.size then replaceAt new n c :: cs
      else c :: replaceAmong new (n - c.size) cs := by
  rw [replaceAmong, replaceAmongOrPass, replaceOrPass_eq]
  by_cases hc : n < c.size
  · rw [if_pos hc, if_pos hc]
  · rw [if_neg hc, if_neg hc, replaceAmong]
    dsimp only
    cases replaceAmongOrPass new (n - c.size) cs <;> rfl

mutual

/-- Kinds and child counts of a tree in preorder, and then further ones. -/
def shapeThen (rest : List (Kind × Nat)) : Tree → List (Kind × Nat)
  | node d cs => (d.kind, cs.length) :: shapeOfThen rest cs

/-- Kinds and child counts of the trees of a list in preorder, and then further ones. -/
def shapeOfThen (rest : List (Kind × Nat)) : List Tree → List (Kind × Nat)
  | [] => rest
  | c :: cs => c.shapeThen (shapeOfThen rest cs)

end

/-- Kinds and child counts in preorder. -/
def shape (t : Tree) : List (Kind × Nat) := t.shapeThen []

/-- Kinds and child counts of the trees of a list, in preorder. -/
def shapeOf (cs : List Tree) : List (Kind × Nat) := shapeOfThen [] cs

/-- Equality up to layout: kinds and child counts agree all along the preorder. -/
def sameShape (s t : Tree) : Bool := s.shape == t.shape

mutual

/-- The shape that is put in front of others is put in front. -/
theorem shapeThen_eq : ∀ (rest : List (Kind × Nat)) (t : Tree),
    t.shapeThen rest = t.shape ++ rest
  | rest, node d cs => by
    rw [shape, shapeThen, shapeThen, List.cons_append, shapeOfThen_eq rest cs,
      shapeOfThen_eq [] cs, List.append_nil]

/-- The shape of trees in a row that is put in front of others is put in front. -/
theorem shapeOfThen_eq : ∀ (rest : List (Kind × Nat)) (cs : List Tree),
    shapeOfThen rest cs = shapeOf cs ++ rest
  | rest, [] => by rw [shapeOf, shapeOfThen, shapeOfThen, List.nil_append]
  | rest, c :: cs => by
    rw [shapeOf, shapeOfThen, shapeOfThen, shapeThen_eq _ c, shapeThen_eq _ c,
      shapeOfThen_eq rest cs, shapeOfThen_eq [] cs, List.append_nil, List.append_assoc]

end

/-- The shape of a node is its kind with the number of its children, and their shape. -/
theorem shape_node (d : Node) (cs : List Tree) :
    (node d cs).shape = (d.kind, cs.length) :: shapeOf cs := by
  rw [shape, shapeThen, shapeOf]

theorem shapeOf_nil : shapeOf [] = [] := by rw [shapeOf, shapeOfThen]

theorem shapeOf_cons (c : Tree) (cs : List Tree) : shapeOf (c :: cs) = c.shape ++ shapeOf cs := by
  rw [shapeOf, shapeOfThen, shapeThen_eq, shapeOf]

mutual

/-- The shape tells kind and child count of every subtree. -/
theorem shape_eq_map : ∀ t : Tree, t.shape = t.subtrees.map fun s => (s.kind, s.children.length)
  | node d cs => by
    rw [shape_node, subtrees_node, List.map_cons, shapeOf_eq_map cs]
    rfl

/-- The shape of trees in a row tells of each subtree its kind and the number of its children. -/
theorem shapeOf_eq_map : ∀ cs : List Tree,
    shapeOf cs = (subtreesOf cs).map fun s => (s.kind, s.children.length)
  | [] => by rw [shapeOf_nil, subtreesOf_nil, List.map_nil]
  | c :: cs => by
    rw [shapeOf_cons, subtreesOf_cons, List.map_append, shape_eq_map c, shapeOf_eq_map cs]

end

theorem length_shape (t : Tree) : t.shape.length = t.size := by
  rw [shape_eq_map, List.length_map, length_subtrees]

/-- A replacement keeps the number of trees in a row. -/
theorem length_replaceAmong (new : Tree) (n : Nat) (cs : List Tree) :
    (replaceAmong new n cs).length = cs.length := by
  induction cs generalizing n with
  | nil => rw [replaceAmong_nil]
  | cons c cs ih =>
      rw [replaceAmong_cons]
      split
      · rfl
      · rw [List.length_cons, List.length_cons, ih]

mutual

/-- A subtree lies within the nodes of its tree. -/
theorem add_size_le : ∀ (n : Nat) (t old : Tree), t.subtrees[n]? = some old → n + old.size ≤ t.size
  | 0, node d cs, old, h => by
    rw [subtrees_node, List.getElem?_cons_zero, Option.some.injEq] at h
    rw [← h]
    omega
  | n + 1, node d cs, old, h => by
    rw [subtrees_node, List.getElem?_cons_succ] at h
    have := add_size_le_sizes n cs old h
    rw [size]
    omega

/-- A subtree of trees in a row ends within them. -/
theorem add_size_le_sizes : ∀ (n : Nat) (cs : List Tree) (old : Tree),
    (subtreesOf cs)[n]? = some old → n + old.size ≤ sizes cs
  | n, [], old, h => by simp [subtreesOf_nil] at h
  | n, c :: cs, old, h => by
    rw [subtreesOf_cons] at h
    rw [sizes]
    by_cases hn : n < c.size
    · rw [List.getElem?_append_left (by rwa [length_subtrees])] at h
      have := add_size_le n c old h
      omega
    · rw [List.getElem?_append_right (by rw [length_subtrees]; omega), length_subtrees] at h
      have := add_size_le_sizes (n - c.size) cs old h
      omega

end

mutual

/-- Swapping a subtree swaps its part of the shape. -/
theorem shape_replaceAt (new : Tree) : ∀ (n : Nat) (t old : Tree), t.subtrees[n]? = some old →
    (replaceAt new n t).shape = t.shape.take n ++ (new.shape ++ t.shape.drop (n + old.size))
  | 0, node d cs, old, h => by
    rw [subtrees_node, List.getElem?_cons_zero, Option.some.injEq] at h
    rw [replaceAt_zero, ← h, List.take_zero, List.nil_append, Nat.zero_add, ← length_shape,
      List.drop_length, List.append_nil]
  | n + 1, node d cs, old, h => by
    rw [subtrees_node, List.getElem?_cons_succ] at h
    rw [replaceAt_succ, shape_node, shape_node, length_replaceAmong,
      shapeOf_replaceAmong new n cs old h, List.take_succ_cons, List.cons_append,
      Nat.add_right_comm, List.drop_succ_cons]

/-- **A replacement exchanges one range of the shape.** -/
theorem shapeOf_replaceAmong (new : Tree) : ∀ (n : Nat) (cs : List Tree) (old : Tree),
    (subtreesOf cs)[n]? = some old →
    shapeOf (replaceAmong new n cs) =
      (shapeOf cs).take n ++ (new.shape ++ (shapeOf cs).drop (n + old.size))
  | n, [], old, h => by simp [subtreesOf_nil] at h
  | n, c :: cs, old, h => by
    rw [subtreesOf_cons] at h
    rw [replaceAmong_cons]
    by_cases hn : n < c.size
    · rw [List.getElem?_append_left (by rwa [length_subtrees])] at h
      have hle := add_size_le n c old h
      rw [if_pos hn, shapeOf_cons, shapeOf_cons, shape_replaceAt new n c old h,
        List.take_append_of_le_length (by rw [length_shape]; omega),
        List.drop_append_of_le_length (by rw [length_shape]; omega)]
      simp only [List.append_assoc]
    · rw [List.getElem?_append_right (by rw [length_subtrees]; omega), length_subtrees] at h
      have hadd : n + old.size - c.size = n - c.size + old.size := by omega
      have htake : c.shape.take n = c.shape :=
        List.take_of_length_le (by rw [length_shape]; omega)
      have hdrop : c.shape.drop (n + old.size) = [] :=
        List.drop_of_length_le (by rw [length_shape]; omega)
      rw [if_neg hn, shapeOf_cons, shapeOf_cons, shapeOf_replaceAmong new (n - c.size) cs old h,
        List.take_append, List.drop_append, length_shape, htake, hdrop, hadd, List.nil_append,
        List.append_assoc]

end

end Tree

end SharpMutants
