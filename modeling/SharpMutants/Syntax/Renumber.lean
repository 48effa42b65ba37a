import SharpMutants.Syntax.Regraft

/-!
# Numbers in preorder

A reader puts a node out when all below it has been put out, so its nodes stand in another order
than their numbers ask for (`Tree.pushed`).  `FlatTree.renumbered` walks them from the root with a
stack of what is yet to be put out, each with the number of its parent, and moves every node that
it comes to into a new array.
-/

namespace SharpMutants

namespace FlatTree

/-- Tells a parent, if there is one, that the next node is its last child. -/
def announce (out : FlatTree) : Option Nat → FlatTree
  | none => out
  | some parent => adopt out parent [out.size]

/-- To take a node leaves fewer of them. -/
theorem countP_take {slots : Array (Option Links)} {id : Nat} {l : Links}
    (h : slots[id]? = some (some l)) :
    (slots.setIfInBounds id none).countP Option.isSome < slots.countP Option.isSome := by
  obtain ⟨hid, hl⟩ := Array.getElem?_eq_some_iff.mp h
  have hpos : 0 < slots.countP Option.isSome :=
    Array.countP_pos_iff.mpr ⟨some l, hl ▸ Array.getElem_mem hid, rfl⟩
  rw [Array.setIfInBounds, dif_pos hid, Array.countP_set, hl, Option.isSome_some, if_pos rfl,
    Option.isSome_none, if_neg Bool.false_ne_true, Nat.add_zero]
  exact Nat.sub_lt hpos Nat.one_pos

/-- Takes the nodes on a stack from where they stand and puts them out with all below them.  A node
that is not there, or has been taken, is passed over. -/
def takeAll (slots : Array (Option Links)) (out : FlatTree) :
    List (Nat × Option Nat) → FlatTree
  | [] => out
  | (id, parent) :: stack =>
    match _h : slots[id]? with
    | some (some l) =>
      takeAll (slots.setIfInBounds id none) ((announce out parent).push ⟨l.node, parent, []⟩)
        (l.children.map (·, some out.size) ++ stack)
    | _ => takeAll slots out stack
termination_by stack => (slots.countP Option.isSome, stack.length)
decreasing_by
  · exact Prod.Lex.left _ _ (countP_take ‹_›)
  · exact Prod.Lex.right _ (Nat.lt_succ_self _)

/-- Nodes in any order, put out in preorder from a root. -/
def renumbered (raw : FlatTree) (root : Nat) : FlatTree :=
  takeAll (raw.map some) #[] [(root, none)]

end FlatTree

namespace Tree

/-- The numbers of the roots of the trees of a list, put out one after another with the roots
behind what is below them. -/
def lastNumbersFrom (id : Nat) (cs : List Tree) : List Nat :=
  (numberFrom id cs).map fun e => e.1 + e.2.size - 1

mutual

/-- The nodes of a tree as a reader puts them out, the first with the number `id`: children before
their parent, and no parents known. -/
def pushedFrom (id : Nat) : Tree → List Links
  | node d cs => pushedAllFrom id cs ++ [⟨d, none, lastNumbersFrom id cs⟩]

/-- The nodes of the trees of a list as a reader puts them out. -/
def pushedAllFrom (id : Nat) : List Tree → List Links
  | [] => []
  | c :: cs => c.pushedFrom id ++ pushedAllFrom (id + c.size) cs

end

/-- The nodes of a tree as a reader puts them out. -/
def pushed (t : Tree) : FlatTree := (t.pushedFrom 0).toArray

end Tree

end SharpMutants
