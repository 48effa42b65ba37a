import SharpMutants.Syntax.Document

/-!
# The flat view of a tree

`Tree.arena` lays a tree out as an array with one slot per node, in preorder.  A
slot holds the subtree at its node, the number of the parent and the numbers of
the children.  Ancestors are found by following parents, and the end of a subtree
by following last children, so the nodes of a subtree are a range of numbers.

The key local fact is `subtree?_arena`: a slot holds the subtree at its node.
-/

namespace SharpMutants

/-- The subtree at a node, with the neighbours of the node by number. -/
structure Slot where
  tree : Tree
  parent : Option Nat
  children : List Nat

/-- The node of a slot. -/
def Slot.node (s : Slot) : Node := s.tree.root

/-- What a slot says about its own node: the node, its parent and its children. -/
structure Links where
  node : Node
  parent : Option Nat
  children : List Nat

/-- The links of a slot. -/
def Slot.links (s : Slot) : Links := ⟨s.node, s.parent, s.children⟩

/-- A tree as an array of slots; the place of a slot is its number. -/
abbrev Arena := Array Slot

namespace Tree

/-- The node numbers of the trees of a list, the first being `id`. -/
def numbersFrom (id : Nat) (cs : List Tree) : List Nat := (numberFrom id cs).map Prod.fst

mutual

/-- The slots of a tree whose root has the number `id`, and then further slots. -/
def slotsThen (rest : List Slot) (id : Nat) (parent : Option Nat) : Tree → List Slot
  | node d cs => ⟨node d cs, parent, numbersFrom (id + 1) cs⟩ :: slotsOfThen rest (id + 1) id cs

/-- The slots of the trees of a list, the first root having the number `id`, and then further
slots. -/
def slotsOfThen (rest : List Slot) (id parent : Nat) : List Tree → List Slot
  | [] => rest
  | [c] => c.slotsThen rest id (some parent)
  | c :: cs => c.slotsThen (slotsOfThen rest (id + c.size) parent cs) id (some parent)

end

/-- The slots of a tree whose root has the number `id`. -/
def slots (id : Nat) (parent : Option Nat) (t : Tree) : List Slot := t.slotsThen [] id parent

/-- The slots of the trees of a list, the first root having the number `id`. -/
def slotsOf (id parent : Nat) (cs : List Tree) : List Slot := slotsOfThen [] id parent cs

/-- The slots of trees in a row come before those of the others. -/
theorem slotsOfThen_cons (rest : List Slot) (id parent : Nat) (c : Tree) (cs : List Tree) :
    slotsOfThen rest id parent (c :: cs) =
      c.slotsThen (slotsOfThen rest (id + c.size) parent cs) id (some parent) := by
  cases cs with
  | nil => rfl
  | cons b cs => rfl

mutual

/-- Slots that are put in front of others are put in front. -/
theorem slotsThen_eq : ∀ (rest : List Slot) (id : Nat) (parent : Option Nat) (t : Tree),
    t.slotsThen rest id parent = t.slots id parent ++ rest
  | rest, id, parent, node d cs => by
    rw [slots, slotsThen, slotsThen, List.cons_append, slotsOfThen_eq rest _ _ cs,
      slotsOfThen_eq [] _ _ cs, List.append_nil]

/-- The slots of trees in a row that are put in front of others are put in front. -/
theorem slotsOfThen_eq : ∀ (rest : List Slot) (id parent : Nat) (cs : List Tree),
    slotsOfThen rest id parent cs = slotsOf id parent cs ++ rest
  | rest, id, parent, [] => by rw [slotsOf, slotsOfThen, slotsOfThen, List.nil_append]
  | rest, id, parent, c :: cs => by
    rw [slotsOf, slotsOfThen_cons, slotsOfThen_cons, slotsThen_eq _ _ _ c,
      slotsThen_eq _ _ _ c, slotsOfThen_eq rest _ _ cs, slotsOfThen_eq [] _ _ cs, List.append_nil, List.append_assoc]

end

/-- The slots of a node are its own and those of its children. -/
theorem slots_node (id : Nat) (parent : Option Nat) (d : Node) (cs : List Tree) :
    (node d cs).slots id parent =
      ⟨node d cs, parent, numbersFrom (id + 1) cs⟩ :: slotsOf (id + 1) id cs := by
  rw [slots, slotsThen, slotsOf]

theorem slotsOf_nil (id parent : Nat) : slotsOf id parent [] = [] := by
  rw [slotsOf, slotsOfThen]

/-- The slots of trees in a row are those of the first and of the others behind it. -/
theorem slotsOf_cons (id parent : Nat) (c : Tree) (cs : List Tree) :
    slotsOf id parent (c :: cs) =
      c.slots id (some parent) ++ slotsOf (id + c.size) parent cs := by
  rw [slotsOf, slotsOfThen_cons, slotsThen_eq, slotsOf]

mutual

/-- The slots hold the subtrees, in order. -/
theorem map_tree_slots : ∀ (id : Nat) (parent : Option Nat) (t : Tree),
    (t.slots id parent).map Slot.tree = t.subtrees
  | id, parent, node d cs => by
    rw [slots_node, subtrees_node, List.map_cons, map_tree_slotsOf _ _ cs]

/-- The trees in the slots of trees in a row are their subtrees. -/
theorem map_tree_slotsOf : ∀ (id parent : Nat) (cs : List Tree),
    (slotsOf id parent cs).map Slot.tree = subtreesOf cs
  | id, parent, [] => by rw [slotsOf_nil, subtreesOf_nil, List.map_nil]
  | id, parent, c :: cs => by
    rw [slotsOf_cons, subtreesOf_cons, List.map_append, map_tree_slots _ _ c,
      map_tree_slotsOf _ _ cs]

end

/-- The flat view of a whole tree. -/
def arena (t : Tree) : Arena := (t.slots 0 none).toArray

end Tree

namespace Arena

/-- The subtree at a node. -/
def subtree? (a : Arena) (id : Nat) : Option Tree := a[id]?.map Slot.tree

/-- The subtree at a number is the same in the flat view and in the tree. -/
theorem subtree?_arena (t : Tree) (id : Nat) : subtree? t.arena id = t.subtree? id := by
  rw [subtree?, Tree.arena, List.getElem?_toArray, ← List.getElem?_map, Tree.map_tree_slots,
    Tree.subtree?]

/-- The number of the parent of a node. -/
def parent? (a : Arena) (id : Nat) : Option Nat := a[id]?.bind Slot.parent

/-- The numbers of the children of a node. -/
def childrenOf (a : Arena) (id : Nat) : List Nat := (a[id]?.map Slot.children).getD []

/-- The kind of a node. -/
def kind? (a : Arena) (id : Nat) : Option Kind := a[id]?.map fun s => s.node.kind

/-- At most `n` ancestors of a node, nearest first. -/
def ancestorsWithin (a : Arena) : Nat → Nat → List Nat
  | 0, _ => []
  | n + 1, id =>
    match a.parent? id with
    | none => []
    | some p => p :: ancestorsWithin a n p

/-- The ancestors of a node, nearest first. -/
def ancestors (a : Arena) (id : Nat) : List Nat := a.ancestorsWithin a.size id

/-- The node reached by at most `n` steps to last children. -/
def lastWithin (a : Arena) : Nat → Nat → Nat
  | 0, id => id
  | n + 1, id =>
    match (a.childrenOf id).getLast? with
    | none => id
    | some c => lastWithin a n c

/-- The number after the last node of a subtree. -/
def subtreeStop (a : Arena) (id : Nat) : Nat := a.lastWithin a.size id + 1

/-- A node and all below it, in preorder. -/
def descendants (a : Arena) (id : Nat) : List Nat := List.range' id (a.subtreeStop id - id)

/-- The child of the same parent right after a node. -/
def nextSibling? (a : Arena) (id : Nat) : Option Nat := do
  let p ← a.parent? id
  let siblings := a.childrenOf p
  let place ← siblings.idxOf? id
  siblings[place + 1]?

/-- The name of the innermost method around a node, the node itself included. -/
def enclosingMethod? (a : Arena) (id : Nat) : Option String :=
  (id :: a.ancestors id).findSome? fun n =>
    match a.kind? n with
    | some (.methodDecl name _ _) => some name
    | _ => none

/-- The name of the innermost class around a node. -/
def enclosingClass? (a : Arena) (id : Nat) : Option String :=
  (a.ancestors id).findSome? fun n =>
    match a.kind? n with
    | some (.classDecl name _) => some name
    | _ => none

/-- Whether a node is the child of another that stands at a place among its children. -/
def isChildAt (a : Arena) (parent place id : Nat) : Bool := (a.childrenOf parent)[place]? == some id

/-- Whether a node is the condition of an `if`, `while` or `for`. -/
def isCondition (a : Arena) (id : Nat) : Bool :=
  match a.parent? id with
  | none => false
  | some p =>
    match a.kind? p with
    | some .ifStatement | some .whileStatement => a.isChildAt p 0 id
    | some .forStatement => a.isChildAt p 1 id
    | _ => false

/-- Kind and number of children of the nodes of a subtree, in preorder. -/
def shapeAt (a : Arena) (id : Nat) : List (Kind × Nat) :=
  (a.descendants id).filterMap fun n => a[n]?.map fun s => (s.node.kind, s.children.length)

end Arena

namespace Document

/-- The flat view of the tree of a document. -/
def arena (d : Document) : Arena := d.tree.arena

/-- The subtrees at two nodes of two documents are equal up to layout: the ranges of nodes
have one length, and kinds and child counts agree along them. -/
def sameShapeAt (d : Document) (a : Nat) (e : Document) (b : Nat) : Bool :=
  d.arena.shapeAt a == e.arena.shapeAt b

end Document

end SharpMutants
