import Mathlib.Logic.Relation
import SharpMutants.Proofs.Neighbours
import SharpMutants.Proofs.Dataflow.Indexes

/-!
# Node numbers before and after an edit

`Arena.IsPreorder` says what it means that the slots of an array stand in preorder: the
links up and down agree, the first child stands right behind its parent, each further
child right behind the subtree before it, and the range that `descendants` answers is
the node and what steps to children lead to.  Subtrees are ranges of slots
(`subtreeStop_arena`), and everything about them follows from that.

An edit puts one range in the place of another.  The slots before it and behind it keep
their nodes, and the numbers in them change by the one map `renumber`
(`links_replaceAt`); for a document this is `Document.exchanges`.
-/

namespace SharpMutants

namespace Tree

variable {t s : Tree} {n : Nat}

theorem size_node (d : Node) (cs : List Tree) : (node d cs).size = 1 + sizes cs := by rw [size]

theorem sizes_append (ls rs : List Tree) : sizes (ls ++ rs) = sizes ls + sizes rs := by
  induction ls with
  | nil => rw [List.nil_append, sizes, Nat.zero_add]
  | cons c ls ih => rw [List.cons_append, sizes, sizes, ih, Nat.add_assoc]

/-- A tree has the nodes of the children on both sides of a child, those of the child, and one
more. -/
theorem size_of_children {ls rs : List Tree} {u : Tree} (h : s.children = ls ++ u :: rs) :
    s.size = 1 + (sizes ls + (u.size + sizes rs)) := by
  obtain ⟨d, cs⟩ := s
  obtain rfl : cs = ls ++ u :: rs := h
  rw [size_node, sizes_append, sizes]

theorem numbersFrom_nil (id : Nat) : numbersFrom id [] = [] := by
  rw [numbersFrom, numberFrom_nil, List.map_nil]

/-- Trees in a row are numbered by the nodes before them. -/
theorem numbersFrom_cons (id : Nat) (c : Tree) (cs : List Tree) :
    numbersFrom id (c :: cs) = id :: numbersFrom (id + c.size) cs := by
  rw [numbersFrom, numberFrom_cons, List.map_cons, numbersFrom]

/-- The numbers of two lists of trees in a row are those of the first and of the second behind
it. -/
theorem numbersFrom_append (id : Nat) (ls rs : List Tree) :
    numbersFrom id (ls ++ rs) = numbersFrom id ls ++ numbersFrom (id + sizes ls) rs := by
  induction ls generalizing id with
  | nil => rw [List.nil_append, sizes, numbersFrom_nil, List.nil_append, Nat.add_zero]
  | cons c ls ih =>
      rw [List.cons_append, numbersFrom_cons, numbersFrom_cons, ih, sizes, Nat.add_assoc,
        List.cons_append]

/-- The number of a child counts the nodes of the children before it. -/
theorem getElem?_numbersFrom (id : Nat) (cs : List Tree) (i : Nat) :
    (numbersFrom id cs)[i]? = cs[i]?.map fun _ => id + sizes (cs.take i) := by
  induction cs generalizing id i with
  | nil =>
      rw [numbersFrom_nil]
      rfl
  | cons c cs ih =>
      rw [numbersFrom_cons]
      cases i with
      | zero =>
          rw [List.take_zero, sizes]
          rfl
      | succ i =>
          rw [List.getElem?_cons_succ, ih, List.getElem?_cons_succ, List.take_succ_cons, sizes,
            Nat.add_assoc]

/-- Numbers given to the trees of a list rise. -/
theorem pairwise_numbersFrom (id : Nat) (cs : List Tree) :
    (∀ m ∈ numbersFrom id cs, id ≤ m) ∧ (numbersFrom id cs).Pairwise (· < ·) := by
  induction cs generalizing id with
  | nil =>
      rw [numbersFrom_nil]
      exact ⟨by simp, .nil⟩
  | cons c cs ih =>
      have hc := Steps.size_pos c
      obtain ⟨hle, hrising⟩ := ih (id + c.size)
      rw [numbersFrom_cons, List.pairwise_cons, List.forall_mem_cons]
      refine ⟨⟨Nat.le_refl id, fun m hm => ?_⟩, fun m hm => ?_, hrising⟩
      · have := hle m hm
        omega
      · have := hle m hm
        omega

/-- The ranges of the trees of a list, one after another, are one range. -/
theorem flatMap_numbersFrom (f : Nat → List Nat) (id : Nat) (cs : List Tree)
    (hf : ∀ e ∈ numberFrom id cs, f e.1 = List.range' e.1 e.2.size) :
    (numbersFrom id cs).flatMap f = List.range' id (sizes cs) := by
  induction cs generalizing id with
  | nil =>
      rw [numbersFrom_nil, sizes]
      rfl
  | cons c cs ih =>
      rw [numberFrom_cons, List.forall_mem_cons] at hf
      rw [numbersFrom_cons, List.flatMap_cons, ih _ hf.2, hf.1, sizes, List.range'_append_1]

/-- The slots of a subtree stand together in those of the tree. -/
theorem exists_slots (h : t.subtree? n = some s) (id : Nat) (parent : Option Nat) :
    ∃ p, ∀ k, k < s.size → (t.slots id parent)[n + k]? = (s.slots (id + n) p)[k]? := by
  induction n using Nat.strongRecOn generalizing t id parent with
  | ind n ih =>
      obtain ⟨d, cs⟩ := t
      cases n with
      | zero =>
          rw [subtree?, getElem?_subtrees_zero, Option.some.injEq] at h
          subst h
          exact ⟨parent, fun k _ => by rw [Nat.zero_add, Nat.add_zero]⟩
      | succ n =>
          rw [subtree?, subtrees_node, List.getElem?_cons_succ] at h
          obtain ⟨ls, c, rs, j, rfl, rfl, hj, -⟩ := exists_child h
          obtain ⟨p, hp⟩ := ih j (by omega) hj (id + 1 + sizes ls) (some id)
          refine ⟨p, fun k hk => ?_⟩
          have hle := add_size_le j c s hj
          rw [slots_node, show sizes ls + j + 1 + k = sizes ls + (j + k) + 1 by omega,
            List.getElem?_cons_succ, getElem?_slotsOf_middle _ _ _ _ (by omega), hp k hk,
            show id + (sizes ls + j + 1) = id + 1 + sizes ls + j by omega]

/-- A child of a subtree has the number behind the children before it. -/
theorem subtree?_child {ls rs : List Tree} {u : Tree} (h : t.subtree? n = some s)
    (hcs : s.children = ls ++ u :: rs) : t.subtree? (n + 1 + sizes ls) = some u := by
  have hu := Steps.size_pos u
  have hlt : 1 + sizes ls < s.size := by
    rw [size_of_children hcs]
    omega
  obtain ⟨d, cs⟩ := s
  obtain rfl : cs = ls ++ u :: rs := hcs
  rw [Nat.add_assoc, subtree?_add h hlt, subtree?, subtrees_node, Nat.add_comm,
    List.getElem?_cons_succ, ← Nat.add_zero (sizes ls), getElem?_subtreesOf_middle _ _ hu,
    getElem?_subtrees_zero]

end Tree

/-! ## Preorder -/

namespace Arena

/-- One node is a child of another. -/
def IsChild (a : Arena) (n c : Nat) : Prop := c ∈ a.childrenOf n

/-- The slots of an array are the nodes of one tree in preorder. -/
structure IsPreorder (a : Arena) : Prop where
  /-- There is a root. -/
  size_pos : 0 < a.size
  /-- Only the root has no parent. -/
  parent?_eq_none : ∀ n, n < a.size → (a.parent? n = none ↔ n = 0)
  /-- The parent of a node is that whose child it is. -/
  parent?_eq_some : ∀ n c, a.parent? c = some n ↔ a.IsChild n c
  /-- No child is named twice. -/
  nodup_childrenOf : ∀ n, (a.childrenOf n).Nodup
  /-- The first child stands right behind its parent. -/
  first : ∀ n c, (a.childrenOf n)[0]? = some c → c = n + 1
  /-- Each further child stands right behind the subtree before it. -/
  next : ∀ n i b c, (a.childrenOf n)[i]? = some b → (a.childrenOf n)[i + 1]? = some c →
    c = a.subtreeStop b
  /-- A subtree is its root and then the subtrees of the children. -/
  descendants_eq : ∀ n, n < a.size →
    a.descendants n = n :: (a.childrenOf n).flatMap a.descendants
  /-- A subtree has what steps to children lead to. -/
  mem_descendants : ∀ n m, n < a.size →
    (m ∈ a.descendants n ↔ Relation.ReflTransGen a.IsChild n m)
  /-- No node is in a subtree twice. -/
  nodup_descendants : ∀ n, (a.descendants n).Nodup
  /-- All nodes are below the root. -/
  descendants_root : a.descendants 0 = List.range a.size

variable {t s : Tree} {n : Nat}

theorem size_arena (t : Tree) : t.arena.size = t.size := by
  rw [Tree.arena, List.size_toArray, Tree.length_slots]

/-- The nodes of a tree are the numbers below the size of its flat view. -/
theorem exists_subtree_iff : (∃ s, t.subtree? n = some s) ↔ n < t.arena.size := by
  rw [size_arena, ← Tree.length_subtrees, Tree.subtree?, ← Option.isSome_iff_exists]
  simp

/-- The children of a node stand behind it, each behind the nodes of those before it. -/
theorem isChild_iff (h : t.subtree? n = some s) {c : Nat} : t.arena.IsChild n c ↔
    ∃ ls u rs, s.children = ls ++ u :: rs ∧ c = n + 1 + Tree.sizes ls := by
  rw [IsChild, childrenOf_arena h, List.mem_iff_getElem?]
  constructor
  · rintro ⟨i, hi⟩
    rw [Tree.getElem?_numbersFrom, Option.map_eq_some_iff] at hi
    obtain ⟨u, hu, rfl⟩ := hi
    obtain ⟨hlt, rfl⟩ := List.getElem?_eq_some_iff.mp hu
    refine ⟨s.children.take i, s.children[i], s.children.drop (i + 1), ?_, rfl⟩
    rw [List.getElem_cons_drop, List.take_append_drop]
  · rintro ⟨ls, u, rs, hcs, rfl⟩
    refine ⟨ls.length, ?_⟩
    rw [Tree.getElem?_numbersFrom, hcs, List.getElem?_append_right (Nat.le_refl _), Nat.sub_self,
      List.take_left]
    rfl

/-- A node that is not there has no children. -/
theorem IsChild.exists_subtree {c : Nat} (h : t.arena.IsChild n c) :
    ∃ s, t.subtree? n = some s := by
  rw [exists_subtree_iff]
  by_contra hn
  rw [IsChild, childrenOf, Array.getElem?_eq_none (by omega)] at h
  cases h

/-- A child is below its parent. -/
theorem IsChild.below {c : Nat} (h : t.arena.IsChild n c) : t.Below n c := by
  obtain ⟨s, hs⟩ := h.exists_subtree
  obtain ⟨ls, u, rs, hcs, rfl⟩ := (isChild_iff hs).mp h
  have hu := Steps.size_pos u
  rw [Tree.below_iff hs, Tree.size_of_children hcs]
  omega

/-- Last children lead to the last node of a subtree. -/
theorem lastWithin_arena (k : Nat) (h : t.subtree? n = some s) (hk : s.size ≤ k + 1) :
    t.arena.lastWithin k n + 1 = n + s.size := by
  induction k generalizing n s with
  | zero =>
      have := Steps.size_pos s
      rw [lastWithin]
      omega
  | succ k ih =>
      rw [lastWithin, childrenOf_arena h]
      rcases List.eq_nil_or_concat s.children with hcs | ⟨ls, u, hcs⟩
      · obtain ⟨d, cs⟩ := s
        obtain rfl : cs = [] := hcs
        rw [Tree.children, Tree.numbersFrom_nil, Tree.size_node, Tree.sizes]
        rfl
      · rw [List.concat_eq_append] at hcs
        have hsize := Tree.size_of_children hcs
        rw [Tree.sizes] at hsize
        rw [hcs, Tree.numbersFrom_append, Tree.numbersFrom_cons, Tree.numbersFrom_nil,
          List.getLast?_concat]
        have hlast : t.arena.lastWithin k (n + 1 + Tree.sizes ls) + 1 =
            n + 1 + Tree.sizes ls + u.size := ih (Tree.subtree?_child h hcs) (by omega)
        show t.arena.lastWithin k (n + 1 + Tree.sizes ls) + 1 = n + s.size
        omega

/-- **A subtree is a range** of as many slots as it has nodes. -/
theorem subtreeStop_arena (h : t.subtree? n = some s) : t.arena.subtreeStop n = n + s.size := by
  have hle := Tree.add_size_le n t s h
  exact lastWithin_arena t.arena.size h (by rw [size_arena]; omega)

/-- The descendants of a node are a range of numbers. -/
theorem descendants_arena (h : t.subtree? n = some s) :
    t.arena.descendants n = List.range' n s.size := by
  rw [descendants, subtreeStop_arena h, Nat.add_sub_cancel_left]

/-- The descendants of a node are itself and those of its children in order. -/
theorem descendants_eq (h : t.subtree? n = some s) : t.arena.descendants n =
    n :: (t.arena.childrenOf n).flatMap t.arena.descendants := by
  obtain ⟨d, cs⟩ := s
  have hchildren : ∀ e ∈ Tree.numberFrom (n + 1) cs,
      t.arena.descendants e.1 = List.range' e.1 e.2.size := fun e he =>
    descendants_arena (Tree.subtree?_of_mem_numberFrom h he)
  rw [descendants_arena h, childrenOf_arena h, Tree.size_node, Nat.add_comm, List.range'_succ,
    Tree.children, Tree.flatMap_numbersFrom _ _ _ hchildren]

/-- A child begins where the subtree of the one before it stops. -/
theorem next_child {i b c : Nat} (hb : (t.arena.childrenOf n)[i]? = some b)
    (hc : (t.arena.childrenOf n)[i + 1]? = some c) : c = t.arena.subtreeStop b := by
  have hchild : t.arena.IsChild n b := List.mem_of_getElem? hb
  obtain ⟨s, hs⟩ := hchild.exists_subtree
  rw [childrenOf_arena hs, Tree.getElem?_numbersFrom, Option.map_eq_some_iff] at hb hc
  obtain ⟨u, hu, rfl⟩ := hb
  obtain ⟨v, hv, rfl⟩ := hc
  obtain ⟨hi, rfl⟩ := List.getElem?_eq_some_iff.mp hu
  have hsplit : s.children = s.children.take i ++ s.children[i] :: s.children.drop (i + 1) := by
    rw [List.getElem_cons_drop, List.take_append_drop]
  rw [subtreeStop_arena (Tree.subtree?_child hs hsplit), List.take_succ_eq_append_getElem hi,
    Tree.sizes_append, Tree.sizes, Tree.sizes]
  omega

/-- Steps to children lead to every node in the range of a subtree. -/
theorem reaches_of_lt (h : t.subtree? n = some s) {k : Nat} (hk : k < s.size) :
    Relation.ReflTransGen t.arena.IsChild n (n + k) := by
  induction k using Nat.strongRecOn generalizing n s with
  | ind k ih =>
      obtain ⟨d, cs⟩ := s
      cases k with
      | zero => exact .refl
      | succ k =>
          rw [Tree.size_node] at hk
          obtain ⟨ls, u, rs, j, rfl, rfl, hj⟩ := Tree.exists_middle (n := k) (by omega : k < Tree.sizes cs)
          have hchild : t.arena.IsChild n (n + 1 + Tree.sizes ls) :=
            (isChild_iff h).mpr ⟨ls, u, rs, rfl, rfl⟩
          have hbelow := ih j (by omega) (Tree.subtree?_child h rfl) hj
          rw [show n + (Tree.sizes ls + j + 1) = n + 1 + Tree.sizes ls + j by omega]
          exact .head hchild hbelow

/-- A descendant is reached over children. -/
theorem mem_descendants_arena (h : t.subtree? n = some s) {m : Nat} :
    m ∈ t.arena.descendants n ↔ Relation.ReflTransGen t.arena.IsChild n m := by
  rw [descendants_arena h, List.mem_range'_1]
  constructor
  · rintro ⟨hle, hlt⟩
    have hreaches := reaches_of_lt h (k := m - n) (by omega)
    rwa [show n + (m - n) = m by omega] at hreaches
  · intro hreaches
    rw [← Tree.below_iff h]
    induction hreaches with
    | refl => exact Tree.below_self h
    | tail _ hchild ih => exact ih.trans hchild.below

/-- The parent of a node is the one whose child it is. -/
theorem parent?_eq_some_iff {c : Nat} : t.arena.parent? c = some n ↔ t.arena.IsChild n c := by
  constructor
  · intro hparent
    have hc : c < t.arena.size := by
      by_contra hc
      rw [parent?, Array.getElem?_eq_none (by omega)] at hparent
      cases hparent
    obtain ⟨u, hu⟩ := exists_subtree_iff.mpr hc
    rcases parent?_arena hu with ⟨-, hroot⟩ | ⟨q, d, ls, rs, hq, hchild⟩
    · rw [hroot] at hparent
      cases hparent
    · obtain rfl : q = n := Option.some.inj (hq.symm.trans hparent)
      exact (isChild_iff hchild.parent).mpr ⟨ls, u, rs, rfl, hchild.number⟩
  · intro hchild
    obtain ⟨s, hs⟩ := hchild.exists_subtree
    obtain ⟨ls, u, rs, hcs, rfl⟩ := (isChild_iff hs).mp hchild
    have hu := Steps.size_pos u
    obtain ⟨p, hp⟩ := Tree.exists_slots hs 0 none
    have hslot := hp (Tree.sizes ls + 1) (by rw [Tree.size_of_children hcs]; omega)
    obtain ⟨d, cs⟩ := s
    obtain rfl : cs = ls ++ u :: rs := hcs
    rw [Tree.slots_node, List.getElem?_cons_succ, ← Nat.add_zero (Tree.sizes ls),
      Tree.getElem?_slotsOf_middle _ _ _ _ hu, Nat.zero_add, Nat.add_zero] at hslot
    rw [parent?, Tree.arena, List.getElem?_toArray,
      show n + 1 + Tree.sizes ls = n + (Tree.sizes ls + 1) by omega, hslot]
    obtain ⟨e, ds⟩ := u
    rw [Tree.slots_node]
    rfl

/-- **The flat view of a tree is in preorder.** -/
theorem isPreorder_arena (t : Tree) : t.arena.IsPreorder where
  size_pos := by
    rw [size_arena]
    exact Steps.size_pos t
  parent?_eq_none n hn := by
    obtain ⟨s, hs⟩ := exists_subtree_iff.mpr hn
    constructor
    · intro hnone
      rcases parent?_arena hs with ⟨hroot, -⟩ | ⟨q, d, ls, rs, hq, -⟩
      · exact hroot
      · rw [hq] at hnone
        cases hnone
    · rintro rfl
      rcases parent?_arena hs with ⟨-, hnone⟩ | ⟨q, d, ls, rs, -, hchild⟩
      · exact hnone
      · have := hchild.number
        omega
  parent?_eq_some n c := parent?_eq_some_iff
  nodup_childrenOf n := by
    by_cases hn : n < t.arena.size
    · obtain ⟨s, hs⟩ := exists_subtree_iff.mpr hn
      rw [childrenOf_arena hs]
      exact (Tree.pairwise_numbersFrom _ _).2.imp Nat.ne_of_lt
    · rw [childrenOf, Array.getElem?_eq_none (by omega)]
      exact .nil
  first n c hc := by
    have hchild : t.arena.IsChild n c := List.mem_of_getElem? hc
    obtain ⟨s, hs⟩ := hchild.exists_subtree
    rw [childrenOf_arena hs, Tree.getElem?_numbersFrom, Option.map_eq_some_iff] at hc
    obtain ⟨u, -, rfl⟩ := hc
    rw [List.take_zero, Tree.sizes, Nat.add_zero]
  next n i b c hb hc := next_child hb hc
  descendants_eq n hn := by
    obtain ⟨s, hs⟩ := exists_subtree_iff.mpr hn
    exact descendants_eq hs
  mem_descendants n m hn := by
    obtain ⟨s, hs⟩ := exists_subtree_iff.mpr hn
    exact mem_descendants_arena hs
  nodup_descendants n := List.nodup_range'
  descendants_root := by
    rw [descendants_arena (Tree.getElem?_subtrees_zero t), size_arena, List.range_eq_range']

end Arena

/-! ## Children and what is below them -/

namespace Tree

variable {root s c : Tree} {ls rs : List Tree} {id n k : Nat}

/-- Of two children of a node, one comes with all its nodes ahead of the other. -/
theorem split_of_lt {ls' rs' : List Tree} {c' : Tree} (h : ls ++ c :: rs = ls' ++ c' :: rs')
    (hlt : sizes ls < sizes ls') : c ∈ ls' ∧ sizes ls + c.size ≤ sizes ls' := by
  rcases List.append_eq_append_iff.mp h with ⟨ms, rfl, hms⟩ | ⟨ms, rfl, hms⟩
  · cases ms with
    | nil => simp at hlt
    | cons m ms =>
        obtain ⟨rfl, -⟩ := List.cons.inj hms
        refine ⟨List.mem_append_right _ List.mem_cons_self, ?_⟩
        rw [sizes_append, sizes]
        omega
  · rw [sizes_append] at hlt
    omega

/-- A child of a subtree is a child in the flat view. -/
theorem isChild (hid : root.subtree? id = some s) (ls : List Tree) {rs : List Tree}
    (hcs : s.children = ls ++ c :: rs) : root.arena.IsChild id (id + 1 + sizes ls) :=
  (Arena.isChild_iff hid).mpr ⟨ls, c, rs, hcs, rfl⟩

/-- The numbers of the children of a node. -/
theorem isChild_children {d : Node} {cs : List Tree} (hid : root.subtree? id = some (.node d cs)) :
    (numberFrom (id + 1) cs).Forall fun e => root.arena.IsChild id e.1 := by
  rw [List.forall_iff_forall_mem]
  intro e he
  rw [Arena.IsChild, Arena.childrenOf_arena hid]
  exact List.mem_map_of_mem he

/-- Where the parts of an `if` with two branches stand.  The second branch is two nodes down. -/
structure Branches (root : Tree) (id : Nat) (cond body : Tree) (e : Node) (other : Tree) :
    Prop where
  condId : root.subtree? (id + 1) = some cond
  bodyId : root.subtree? (id + 1 + cond.size) = some body
  clauseId : root.subtree? (id + 1 + cond.size + body.size) = some (.node e [other])
  otherId : root.subtree? (id + 1 + cond.size + body.size + 1) = some other
  condChild : root.arena.IsChild id (id + 1)
  bodyChild : root.arena.IsChild id (id + 1 + cond.size)
  clauseChild : root.arena.IsChild id (id + 1 + cond.size + body.size)
  otherChild : root.arena.IsChild (id + 1 + cond.size + body.size)
    (id + 1 + cond.size + body.size + 1)

/-- The parts of an `if` with two branches stand where their sizes put them. -/
theorem branches {d e : Node} {cond body other : Tree}
    (hid : root.subtree? id = some (.node d [cond, body, .node e [other]])) :
    Branches root id cond body e other := by
  obtain ⟨hcond, hbody, hclause⟩ := subtree?_children hid
  obtain ⟨hcondChild, hbodyChild, hclauseChild⟩ := isChild_children hid
  exact ⟨hcond, hbody, hclause, subtree?_children hclause, hcondChild, hbodyChild, hclauseChild,
    isChild_children hclause⟩

/-- A node is below one child of a node at most. -/
theorem eq_of_below_children {k' : Nat} (hk : root.arena.IsChild id k)
    (hk' : root.arena.IsChild id k') (hn : root.Below k n) (hn' : root.Below k' n) : k = k' := by
  obtain ⟨s, hid⟩ := hk.exists_subtree
  obtain ⟨ls, c, rs, hcs, rfl⟩ := (Arena.isChild_iff hid).mp hk
  obtain ⟨ls', c', rs', hcs', rfl⟩ := (Arena.isChild_iff hid).mp hk'
  obtain ⟨hle, hlt⟩ := (below_iff (subtree?_child hid hcs)).mp hn
  obtain ⟨hle', hlt'⟩ := (below_iff (subtree?_child hid hcs')).mp hn'
  rcases Nat.lt_trichotomy (sizes ls) (sizes ls') with hsizes | hsizes | hsizes
  · have := (split_of_lt (hcs.symm.trans hcs') hsizes).2
    omega
  · rw [hsizes]
  · have := (split_of_lt (hcs'.symm.trans hcs) hsizes).2
    omega

/-- What is below a node is the node or below one of its children. -/
theorem below_cases (hid : root.subtree? id = some s) (hn : root.Below id n) :
    n = id ∨ ∃ k, root.arena.IsChild id k ∧ root.Below k n := by
  obtain ⟨hle, hlt⟩ := (below_iff hid).mp hn
  rcases Nat.eq_or_lt_of_le hle with rfl | hlater
  · exact .inl rfl
  · have hsize : n - (id + 1) < sizes s.children := by
      obtain ⟨d, cs⟩ := s
      rw [size_node] at hlt
      rw [children]
      omega
    obtain ⟨ls, c, rs, j, hcs, hj, hjc⟩ := exists_middle hsize
    exact .inr ⟨_, isChild hid ls hcs, (below_iff (subtree?_child hid hcs)).mpr (by omega)⟩

/-- What is below a node is the node, or the child of something below it. -/
theorem exists_parent_below (hn : root.Below id n) (hne : n ≠ id) :
    ∃ p, root.arena.parent? n = some p ∧ root.Below id p := by
  obtain ⟨s, hs, hle, hlt⟩ := hn
  have hreaches := Arena.reaches_of_lt hs (k := n - id) (by omega)
  rw [show id + (n - id) = n by omega] at hreaches
  rcases hreaches.cases_tail with heq | ⟨p, hp, hchild⟩
  · exact absurd heq hne
  · refine ⟨p, Arena.parent?_eq_some_iff.mpr hchild, (below_iff hs).mpr ?_⟩
    rwa [← List.mem_range'_1, ← Arena.descendants_arena hs, Arena.mem_descendants_arena hs]

end Tree

/-! ## Edits -/

/-- Links with other numbers for the nodes. -/
def Links.renumber (f : Nat → Nat) (l : Links) : Links :=
  ⟨l.node, l.parent.map f, l.children.map f⟩

namespace Tree

variable {t s : Tree} {n : Nat}

/-- The links of the nodes of a tree whose root has the number `id`. -/
def links (id : Nat) (parent : Option Nat) (t : Tree) : List Links :=
  (t.slots id parent).map Slot.links

/-- The links of the nodes of the trees of a list. -/
def linksOf (id parent : Nat) (cs : List Tree) : List Links :=
  (slotsOf id parent cs).map Slot.links

/-- The links of a node are its own and those of its children. -/
theorem links_node (id : Nat) (parent : Option Nat) (d : Node) (cs : List Tree) :
    (node d cs).links id parent =
      ⟨d, parent, numbersFrom (id + 1) cs⟩ :: linksOf (id + 1) id cs := by
  rw [links, slots_node, List.map_cons, linksOf]
  rfl

theorem linksOf_nil (id parent : Nat) : linksOf id parent [] = [] := by
  rw [linksOf, slotsOf_nil, List.map_nil]

/-- The links of trees in a row are those of the first and of the others behind it. -/
theorem linksOf_cons (id parent : Nat) (c : Tree) (cs : List Tree) :
    linksOf id parent (c :: cs) = c.links id (some parent) ++ linksOf (id + c.size) parent cs := by
  rw [linksOf, slotsOf_cons, List.map_append, links, linksOf]

/-- The links of two lists of trees in a row are those of the first and of the second behind it. -/
theorem linksOf_append (id parent : Nat) (ls rs : List Tree) :
    linksOf id parent (ls ++ rs) =
      linksOf id parent ls ++ linksOf (id + sizes ls) parent rs := by
  induction ls generalizing id with
  | nil => rw [List.nil_append, linksOf_nil, List.nil_append, sizes, Nat.add_zero]
  | cons c ls ih =>
      rw [List.cons_append, linksOf_cons, linksOf_cons, ih, sizes, List.append_assoc,
        Nat.add_assoc]

/-- A tree has links for each node. -/
theorem length_links (id : Nat) (parent : Option Nat) (t : Tree) :
    (t.links id parent).length = t.size := by
  rw [links, List.length_map, length_slots]

/-- The numbers of the trees of a list move together. -/
theorem numbersFrom_move {f : Nat → Nat} {id id' : Nat} {cs : List Tree}
    (hf : ∀ k, k < sizes cs → f (id + k) = id' + k) :
    numbersFrom id' cs = (numbersFrom id cs).map f := by
  induction cs generalizing id id' with
  | nil => rw [numbersFrom_nil, numbersFrom_nil, List.map_nil]
  | cons c cs ih =>
      have hc := Steps.size_pos c
      rw [sizes] at hf
      have hroot : f id = id' := hf 0 (by omega)
      have hrest : ∀ k, k < sizes cs → f (id + c.size + k) = id' + c.size + k := fun k hk => by
        rw [Nat.add_assoc, hf _ (by omega), Nat.add_assoc]
      rw [numbersFrom_cons, numbersFrom_cons, List.map_cons, ← ih hrest, hroot]

mutual

/-- A tree numbered from elsewhere has the same links but for the numbers. -/
theorem links_move {f : Nat → Nat} : ∀ {id id' : Nat} (parent : Option Nat) (t : Tree),
    (∀ k, k < t.size → f (id + k) = id' + k) →
    t.links id' (parent.map f) = (t.links id parent).map (Links.renumber f)
  | id, id', parent, node d cs, hf => by
    rw [size_node] at hf
    have hbelow : ∀ k, k < sizes cs → f (id + 1 + k) = id' + 1 + k := fun k hk => by
      rw [Nat.add_assoc, hf (1 + k) (by omega), Nat.add_assoc]
    have hroot : f id = id' := hf 0 (by omega)
    rw [links_node, links_node, List.map_cons, ← linksOf_move id cs hbelow, hroot,
      numbersFrom_move hbelow]
    rfl

/-- Trees that move to other numbers are linked as before, by the new numbers. -/
theorem linksOf_move {f : Nat → Nat} : ∀ {id id' : Nat} (parent : Nat) (cs : List Tree),
    (∀ k, k < sizes cs → f (id + k) = id' + k) →
    linksOf id' (f parent) cs = (linksOf id parent cs).map (Links.renumber f)
  | id, id', parent, [], _ => by rw [linksOf_nil, linksOf_nil, List.map_nil]
  | id, id', parent, c :: cs, hf => by
    rw [sizes] at hf
    have hrest : ∀ k, k < sizes cs → f (id + c.size + k) = id' + c.size + k := fun k hk => by
      rw [Nat.add_assoc, hf _ (by omega), Nat.add_assoc]
    rw [linksOf_cons, linksOf_cons, List.map_append, ← linksOf_move parent cs hrest,
      ← links_move (some parent) c fun k hk => hf k (by omega)]
    rfl

end

/-- The number of a node outside the range behind `target` after `new` nodes have taken the
place of the `old` nodes from there on. -/
def renumber (target old new n : Nat) : Nat := if n ≤ target then n else n - old + new

/-- **An edit exchanges one range of slots.**  The slots before it and behind it stay, with
renumbered links. -/
theorem links_replaceAt (new : Tree) {old : Tree} (h : t.subtree? n = some old) (id : Nat)
    (parent : Option Nat) (hparent : ∀ q ∈ parent, q ≤ id) :
    ∃ p, (t.slots id parent)[n]?.map Slot.parent = some p ∧
      (replaceAt new n t).links id parent =
        ((t.links id parent).take n).map (Links.renumber (renumber (id + n) old.size new.size)) ++
          (new.links (id + n) p ++ ((t.links id parent).drop (n + old.size)).map
            (Links.renumber (renumber (id + n) old.size new.size))) := by
  induction n using Nat.strongRecOn generalizing t id parent with
  | ind n ih =>
      obtain ⟨d, cs⟩ := t
      cases n with
      | zero =>
          rw [subtree?, getElem?_subtrees_zero, Option.some.injEq] at h
          subst h
          refine ⟨parent, by rw [slots_node]; rfl, ?_⟩
          rw [replaceAt_zero, List.take_zero, List.map_nil, List.nil_append, Nat.add_zero,
            Nat.zero_add, List.drop_of_length_le (Nat.le_of_eq (length_links _ _ _)), List.map_nil,
            List.append_nil]
      | succ n =>
          rw [subtree?, subtrees_node, List.getElem?_cons_succ] at h
          obtain ⟨ls, c, rs, j, rfl, rfl, hj, hreplace⟩ := exists_child h
          have hle := add_size_le j c old hj
          have hold := Steps.size_pos old
          obtain ⟨p, hp, hlinks⟩ := ih j (by omega) hj (id + 1 + sizes ls) (some id)
            (fun q hq => by obtain rfl := Option.some.inj hq; omega)
          rw [show id + 1 + sizes ls + j = id + (sizes ls + j + 1) by omega] at hlinks
          have hsize : (replaceAt new j c).size + old.size = c.size + new.size := by
            have hlength := congrArg List.length hlinks
            simp only [length_links, List.length_append, List.length_map, List.length_take,
              List.length_drop] at hlength
            omega
          generalize hf : renumber (id + (sizes ls + j + 1)) old.size new.size = f at hlinks
          have hstays : ∀ m, m ≤ id + (sizes ls + j + 1) → f m = m := fun m hm => by
            rw [← hf, renumber, if_pos hm]
          have hbefore : ∀ k, k < sizes ls → f (id + 1 + k) = id + 1 + k := fun k hk =>
            hstays _ (by omega)
          have hbehind : ∀ k, k < sizes rs → f (id + 1 + sizes ls + c.size + k) =
              id + 1 + sizes ls + (replaceAt new j c).size + k := fun k hk => by
            rw [← hf, renumber, if_neg (by omega)]
            omega
          have hid : f id = id := hstays id (by omega)
          have hroot : parent.map f = parent := by
            cases parent with
            | none => rfl
            | some q => exact congrArg some (hstays q (by have := hparent q rfl; omega))
          have hnumbers : numbersFrom (id + 1) (ls ++ replaceAt new j c :: rs) =
              (numbersFrom (id + 1) (ls ++ c :: rs)).map f := by
            rw [numbersFrom_append, numbersFrom_append, numbersFrom_cons, numbersFrom_cons,
              List.map_append, List.map_cons, ← numbersFrom_move hbefore, ← numbersFrom_move hbehind,
              hstays (id + 1 + sizes ls) (by omega)]
          have hls := linksOf_move id ls hbefore
          have hrs := linksOf_move id rs hbehind
          rw [hid] at hls hrs
          refine ⟨p, ?_, ?_⟩
          · rw [slots_node, List.getElem?_cons_succ, getElem?_slotsOf_middle _ _ _ _ (by omega), hp]
          · have hlt : (linksOf (id + 1) id ls).length = sizes ls := by
              rw [linksOf, List.length_map, ← length_subtreesOf, ← map_tree_slotsOf, List.length_map]
            rw [replaceAt_succ, hreplace, links_node, links_node, linksOf_append, linksOf_append,
              linksOf_cons, linksOf_cons, hlinks, hnumbers, hrs,
              show sizes ls + j + 1 + old.size = sizes ls + (j + old.size) + 1 by omega,
              List.take_succ_cons, List.drop_succ_cons, ← hlt, List.take_length_add_append,
              List.drop_length_add_append, List.take_append_of_le_length,
              List.drop_append_of_le_length, List.map_cons, List.map_append, List.map_append, ← hls]
            · simp only [Links.renumber, hroot, List.cons_append, List.append_assoc]
            · rw [length_links]
              omega
            · rw [length_links]
              omega

end Tree

namespace Document

/-- The array of a document after an edit is the one before it with one range exchanged; it is
the same array if the target is not there. -/
def Exchanges (d : Document) (target : Nat) (graft : Graft) : Prop :=
  match d.subtree? target with
  | none => (d.replace target graft).arena = d.arena
  | some old =>
    let new := graft.toTree old.span
    let moved := Links.renumber (Tree.renumber target old.size new.size)
    (d.replace target graft).arena.toList.map Slot.links =
      ((d.arena.toList.map Slot.links).take target).map moved ++
        (new.links target (d.arena.parent? target) ++
          ((d.arena.toList.map Slot.links).drop (d.arena.subtreeStop target)).map moved)

/-- **An edit exchanges one range of the array**, and the numbers behind it move. -/
theorem exchanges (d : Document) (target : Nat) (graft : Graft) : d.Exchanges target graft := by
  rw [Exchanges]
  cases hold : d.subtree? target with
  | none => rw [replace, hold]
  | some old =>
      obtain ⟨p, hp, hlinks⟩ := Tree.links_replaceAt (graft.toTree old.span) hold 0 none
        (fun q hq => nomatch hq)
      have hparent : d.tree.arena.parent? target = p := by
        rw [Option.map_eq_some_iff] at hp
        obtain ⟨slot, hslot, rfl⟩ := hp
        rw [Arena.parent?, Tree.arena, List.getElem?_toArray, hslot]
        rfl
      rw [Nat.zero_add] at hlinks
      simp only [replace, hold, put, arena, Arena.subtreeStop_arena hold, hparent]
      exact hlinks

end Document

end SharpMutants
