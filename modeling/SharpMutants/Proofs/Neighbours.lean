import SharpMutants.Proofs.Execution
import SharpMutants.Syntax.Arena

/-!
# Nodes and their neighbours

A node below the root of a tree is a child of another node.  `exists_slot` says so of
the flat view: the slot of a node names its parent and its children by number.  In the
flat view the parent of a node is the node of which it is a child (`parent?_arena`), so
what holds of one node and its children can be carried along the tree one node at a time.
-/

namespace SharpMutants

namespace Tree

variable {t s c old : Tree} {ls rs cs : List Tree} {id n k : Nat}

/-- A node of the trees of a list is a node of one of them. -/
theorem exists_middle (h : n < sizes cs) :
    ∃ ls c rs k, cs = ls ++ c :: rs ∧ n = sizes ls + k ∧ k < c.size := by
  induction cs generalizing n with
  | nil => exact absurd h (Nat.not_lt_zero n)
  | cons c cs ih =>
      rw [sizes] at h
      by_cases hn : n < c.size
      · exact ⟨[], c, cs, n, rfl, (Nat.zero_add n).symm, hn⟩
      · obtain ⟨ls, b, rs, k, rfl, hk, hlt⟩ := ih (n := n - c.size) (by omega)
        exact ⟨c :: ls, b, rs, k, rfl, by rw [sizes]; omega, hlt⟩

/-- The subtrees of a tree in a row begin behind those of the trees before it. -/
theorem getElem?_subtreesOf_middle (ls rs : List Tree) (h : k < c.size) :
    (subtreesOf (ls ++ c :: rs))[sizes ls + k]? = c.subtrees[k]? := by
  induction ls with
  | nil =>
      rw [List.nil_append, sizes, Nat.zero_add, subtreesOf_cons,
        List.getElem?_append_left (by rwa [length_subtrees])]
  | cons b ls ih =>
      have hle : b.subtrees.length ≤ sizes (b :: ls) + k := by
        rw [length_subtrees, sizes]
        omega
      rw [List.cons_append, subtreesOf_cons, List.getElem?_append_right hle, ← ih]
      congr 1
      rw [length_subtrees, sizes]
      omega

/-- Replacing a node among trees in a row replaces it in its own tree. -/
theorem replaceAmong_middle (new : Tree) (ls rs : List Tree) (h : k < c.size) :
    replaceAmong new (sizes ls + k) (ls ++ c :: rs) = ls ++ replaceAt new k c :: rs := by
  induction ls with
  | nil => rw [List.nil_append, sizes, Nat.zero_add, replaceAmong_cons, if_pos h, List.nil_append]
  | cons b ls ih =>
      rw [List.cons_append, replaceAmong_cons, sizes, if_neg (by omega),
        show b.size + sizes ls + k - b.size = sizes ls + k by omega, ih, List.cons_append]

/-- A tree has a slot for each node. -/
theorem length_slots (id : Nat) (parent : Option Nat) (t : Tree) :
    (t.slots id parent).length = t.size := by
  rw [← length_subtrees, ← map_tree_slots id parent, List.length_map]

/-- The slots of a tree in a row begin behind those of the trees before it. -/
theorem getElem?_slotsOf_middle (id parent : Nat) (ls rs : List Tree) (h : k < c.size) :
    (slotsOf id parent (ls ++ c :: rs))[sizes ls + k]? =
      (c.slots (id + sizes ls) (some parent))[k]? := by
  induction ls generalizing id with
  | nil =>
      rw [List.nil_append, sizes, Nat.zero_add, Nat.add_zero, slotsOf_cons,
        List.getElem?_append_left (by rwa [length_slots])]
  | cons b ls ih =>
      have hle : (b.slots id (some parent)).length ≤ sizes (b :: ls) + k := by
        rw [length_slots, sizes]
        omega
      rw [List.cons_append, slotsOf_cons, List.getElem?_append_right hle,
        show id + sizes (b :: ls) = id + b.size + sizes ls by rw [sizes, Nat.add_assoc], ← ih]
      congr 1
      rw [length_slots, sizes]
      omega

/-- The child that a subtree is part of, and the subtree in it. -/
theorem exists_child (h : (subtreesOf cs)[n]? = some old) : ∃ ls c rs k, cs = ls ++ c :: rs ∧
    n = sizes ls + k ∧ c.subtrees[k]? = some old ∧
      ∀ new, replaceAmong new n cs = ls ++ replaceAt new k c :: rs := by
  have hn : n < sizes cs := by
    rw [← length_subtreesOf]
    exact (List.getElem?_eq_some_iff.mp h).1
  obtain ⟨ls, c, rs, k, rfl, rfl, hk⟩ := exists_middle hn
  rw [getElem?_subtreesOf_middle ls rs hk] at h
  exact ⟨ls, c, rs, k, rfl, rfl, h, fun new => replaceAmong_middle new ls rs hk⟩

/-- The first subtree of a tree is the tree. -/
theorem getElem?_subtrees_zero (t : Tree) : t.subtrees[0]? = some t := by
  cases t
  rw [subtrees_node, List.getElem?_cons_zero]

/-- A node is the child of another one, after some children of that and before others. -/
structure ChildOf (t : Tree) (n : Nat) (s : Tree) (q : Nat) (d : Node) (ls rs : List Tree) :
    Prop where
  parent : t.subtrees[q]? = some (.node d (ls ++ s :: rs))
  number : n = q + 1 + sizes ls
  replace : ∀ new, replaceAt new n t = replaceAt (.node d (ls ++ new :: rs)) q t

/-- A child of the root has the number behind the trees before it. -/
theorem childOf_root (d : Node) (ls rs : List Tree) (c : Tree) :
    ChildOf (.node d (ls ++ c :: rs)) (sizes ls + 1) c 0 d ls rs where
  parent := getElem?_subtrees_zero _
  number := by omega
  replace new := by
    rw [replaceAt_succ, replaceAt_zero, ← Nat.add_zero (sizes ls),
      replaceAmong_middle new ls rs (Steps.size_pos c), replaceAt_zero]

/-- What is a child in a child of the root is one in the tree. -/
theorem ChildOf.below {q : Nat} {e : Node} {ls' rs' : List Tree} (h : ChildOf c k s q e ls' rs')
    (hk : k < c.size) (d : Node) (ls rs : List Tree) :
    ChildOf (.node d (ls ++ c :: rs)) (sizes ls + k + 1) s (sizes ls + q + 1) e ls' rs' := by
  have hq : q < c.size := by
    rw [← length_subtrees]
    exact (List.getElem?_eq_some_iff.mp h.parent).1
  refine ⟨?_, ?_, fun new => ?_⟩
  · rw [subtrees_node, List.getElem?_cons_succ, getElem?_subtreesOf_middle ls rs hq, h.parent]
  · have := h.number
    omega
  · rw [replaceAt_succ, replaceAt_succ, replaceAmong_middle _ ls rs hk,
      replaceAmong_middle _ ls rs hq, h.replace]

/-- **The slot of a node** holds its subtree and the numbers of its children, and that of the
parent if it is not the root. -/
theorem exists_slot (h : t.subtrees[n]? = some s) (id : Nat) (parent : Option Nat) :
    ∃ p, (t.slots id parent)[n]? = some ⟨s, p, numbersFrom (id + n + 1) s.children⟩ ∧
      ((n = 0 ∧ p = parent) ∨ ∃ q d ls rs, p = some (id + q) ∧ ChildOf t n s q d ls rs) := by
  induction n using Nat.strongRecOn generalizing t id parent with
  | ind n ih =>
      obtain ⟨d, cs⟩ := t
      cases n with
      | zero =>
          rw [subtrees_node, List.getElem?_cons_zero, Option.some.injEq] at h
          subst h
          exact ⟨parent, by rw [slots_node]; rfl, .inl ⟨rfl, rfl⟩⟩
      | succ n =>
          rw [subtrees_node, List.getElem?_cons_succ] at h
          obtain ⟨ls, c, rs, k, rfl, rfl, hc, -⟩ := exists_child h
          have hk : k < c.size := by
            rw [← length_subtrees]
            exact (List.getElem?_eq_some_iff.mp hc).1
          obtain ⟨p, hslot, hparent⟩ := ih k (by omega) hc (id + 1 + sizes ls) (some id)
          have hnumber : id + 1 + sizes ls + k + 1 = id + (sizes ls + k + 1) + 1 := by omega
          refine ⟨p, ?_, .inr ?_⟩
          · rw [slots_node, List.getElem?_cons_succ, getElem?_slotsOf_middle _ _ ls rs hk, hslot,
              hnumber]
          · rcases hparent with ⟨rfl, rfl⟩ | ⟨q, e, ls', rs', rfl, hchild⟩
            · rw [getElem?_subtrees_zero, Option.some.injEq] at hc
              subst hc
              exact ⟨0, d, ls, rs, rfl, childOf_root d ls rs c⟩
            · exact ⟨sizes ls + q + 1, e, ls', rs', by congr 1; omega, hchild.below hk d ls rs⟩

end Tree

namespace Arena

variable {t s : Tree} {n : Nat}

/-- The kind of a node is that of its subtree. -/
theorem kind?_arena (h : t.subtrees[n]? = some s) : t.arena.kind? n = some s.kind := by
  obtain ⟨p, hslot, -⟩ := Tree.exists_slot h 0 none
  rw [kind?, Tree.arena, List.getElem?_toArray, hslot]
  rfl

/-- The children of a node are those of its subtree, by their numbers. -/
theorem childrenOf_arena (h : t.subtrees[n]? = some s) :
    t.arena.childrenOf n = Tree.numbersFrom (n + 1) s.children := by
  obtain ⟨p, hslot, -⟩ := Tree.exists_slot h 0 none
  rw [childrenOf, Tree.arena, List.getElem?_toArray, hslot, Nat.zero_add]
  rfl

/-- **The parent of a node** in the flat view is the node of which it is a child. -/
theorem parent?_arena (h : t.subtrees[n]? = some s) : (n = 0 ∧ t.arena.parent? n = none) ∨
    ∃ q d ls rs, t.arena.parent? n = some q ∧ Tree.ChildOf t n s q d ls rs := by
  obtain ⟨p, hslot, hparent⟩ := Tree.exists_slot h 0 none
  have hp : t.arena.parent? n = p := by
    rw [parent?, Tree.arena, List.getElem?_toArray, hslot]
    rfl
  rw [hp]
  simpa only [Nat.zero_add] using hparent

end Arena

end SharpMutants
