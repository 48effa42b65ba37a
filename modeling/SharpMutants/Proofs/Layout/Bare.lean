import SharpMutants.Syntax.Arena

/-!
# Trees without layout

A bare tree keeps the kinds of its nodes and nothing else: no extents, no tokens, no
comments (`Tree.bare`).  Two trees have the same bare tree just if they have the same shape
(`Tree.bare_eq_iff`).  Numbers, subtrees and neighbours of nodes can be told from the bare
tree, and a subtree can be swapped before or after a tree is laid bare
(`Tree.bare_replaceAt`).  So what is computed from these alone does not depend on layout.
-/

namespace SharpMutants

/-- The extent of a bare node. -/
def Span.nowhere : Span := ⟨0, 0⟩

/-- A node with nothing but its kind. -/
def Node.bare (d : Node) : Node := ⟨d.kind, .nowhere, none, false, none⟩

@[simp] theorem Node.kind_bare (d : Node) : d.bare.kind = d.kind := rfl

namespace Tree

mutual

/-- A tree with nothing but the kinds of its nodes. -/
def bare : Tree → Tree
  | node d cs => node d.bare (bares cs)

/-- Bare trees. -/
def bares : List Tree → List Tree
  | [] => []
  | c :: cs => c.bare :: bares cs

end

theorem bares_eq (cs : List Tree) : bares cs = cs.map bare := by
  induction cs with
  | nil => rw [bares, List.map_nil]
  | cons c cs ih => rw [bares, ih, List.map_cons]

theorem bare_node (d : Node) (cs : List Tree) : (node d cs).bare = node d.bare (cs.map bare) := by
  rw [bare, bares_eq]

@[simp] theorem children_bare (t : Tree) : t.bare.children = t.children.map bare := by
  cases t
  rw [bare_node, children, children]

@[simp] theorem root_bare (t : Tree) : t.bare.root = t.root.bare := by
  cases t
  rw [bare_node, root, root]

@[simp] theorem kind_bare (t : Tree) : t.bare.kind = t.kind := by
  rw [kind, root_bare]
  rfl

@[simp] theorem span_bare (t : Tree) : t.bare.span = .nowhere := by
  rw [span, root_bare]
  rfl

/-! ## Shapes -/

/-- The subtrees of bare trees are bare, if those of each are. -/
theorem subtreesOf_map_bare {cs : List Tree}
    (h : ∀ c ∈ cs, c.bare.subtrees = c.subtrees.map bare) :
    subtreesOf (cs.map bare) = (subtreesOf cs).map bare := by
  induction cs with
  | nil => rw [List.map_nil, subtreesOf_nil, List.map_nil]
  | cons c cs ih =>
      rw [List.forall_mem_cons] at h
      rw [List.map_cons, subtreesOf_cons, subtreesOf_cons, h.1, ih h.2, List.map_append]

@[simp] theorem subtrees_bare (t : Tree) : t.bare.subtrees = t.subtrees.map bare := by
  induction t using Tree.inductionOn with
  | node d cs ih =>
      rw [bare_node, subtrees_node, subtrees_node, subtreesOf_map_bare ih, List.map_cons, bare_node]

@[simp] theorem shape_bare (t : Tree) : t.bare.shape = t.shape := by
  rw [shape_eq_map, shape_eq_map, subtrees_bare, List.map_map]
  apply List.map_congr_left
  intro u _
  rw [Function.comp_apply, kind_bare, children_bare, List.length_map]

@[simp] theorem size_bare (t : Tree) : t.bare.size = t.size := by
  rw [← length_shape, shape_bare, length_shape]

/-- The shapes of as many trees are told apart one after another, if each is told from what stands
behind it. -/
theorem map_bare_eq_of_shapeOf_append {cs : List Tree} (h : ∀ c ∈ cs, ∀ (u : Tree)
    (rest rest' : List (Kind × Nat)), c.shape ++ rest = u.shape ++ rest' →
      c.bare = u.bare ∧ rest = rest') {us : List Tree} (hlength : cs.length = us.length)
    {rest rest' : List (Kind × Nat)} (heq : shapeOf cs ++ rest = shapeOf us ++ rest') :
    cs.map bare = us.map bare ∧ rest = rest' := by
  induction cs generalizing us with
  | nil =>
      obtain rfl := List.length_eq_zero_iff.mp hlength.symm
      exact ⟨rfl, List.append_cancel_left heq⟩
  | cons c cs ih =>
      cases us with
      | nil => cases hlength
      | cons u us =>
          rw [List.forall_mem_cons] at h
          rw [shapeOf_cons, shapeOf_cons, List.append_assoc, List.append_assoc] at heq
          obtain ⟨hfirst, heq⟩ := h.1 u _ _ heq
          obtain ⟨hmore, hrest⟩ := ih h.2 (Nat.succ.inj hlength) heq
          exact ⟨by rw [List.map_cons, List.map_cons, hfirst, hmore], hrest⟩

/-- A shape is told from what stands behind it. -/
theorem bare_eq_of_shape_append (t : Tree) : ∀ (u : Tree) (rest rest' : List (Kind × Nat)),
    t.shape ++ rest = u.shape ++ rest' → t.bare = u.bare ∧ rest = rest' := by
  induction t using Tree.inductionOn with
  | node d cs ih =>
      intro u rest rest' heq
      obtain ⟨e, us⟩ := u
      rw [shape_node, shape_node, List.cons_append, List.cons_append, List.cons.injEq,
        Prod.mk.injEq] at heq
      obtain ⟨⟨hkind, hlength⟩, heq⟩ := heq
      obtain ⟨hchildren, hrest⟩ := map_bare_eq_of_shapeOf_append ih hlength heq
      exact ⟨by rw [bare_node, bare_node, hchildren, Node.bare, Node.bare, hkind], hrest⟩

/-- **Bare trees are shapes.** -/
theorem bare_eq_iff {t u : Tree} : t.bare = u.bare ↔ t.shape = u.shape := by
  constructor
  · intro h
    rw [← shape_bare, h, shape_bare]
  · intro h
    exact (bare_eq_of_shape_append t u [] [] (by rw [h])).1

/-! ## Numbers -/

/-- Numbered trees with nothing but the kinds of their nodes. -/
def bareNumbered (ns : List (Nat × Tree)) : List (Nat × Tree) := ns.map fun (n, t) => (n, t.bare)

theorem numbered_bare (t : Tree) : t.bare.numbered = bareNumbered t.numbered := by
  rw [numbered, numbered, bareNumbered, subtrees_bare, List.zipIdx_map, List.map_map, List.map_map]
  rfl

/-- Bare trees in a row keep their numbers. -/
theorem numberFrom_bare (id : Nat) (cs : List Tree) :
    numberFrom id (cs.map bare) = bareNumbered (numberFrom id cs) := by
  induction cs generalizing id with
  | nil => rw [List.map_nil, numberFrom_nil, bareNumbered, List.map_nil]
  | cons c cs ih =>
      rw [List.map_cons, numberFrom_cons, numberFrom_cons, size_bare, ih, bareNumbered,
        bareNumbered, List.map_cons]

/-- Bare trees in a row are counted as before. -/
theorem numbersFrom_bare (id : Nat) (cs : List Tree) :
    numbersFrom id (cs.map bare) = numbersFrom id cs := by
  rw [numbersFrom, numbersFrom, numberFrom_bare, bareNumbered, List.map_map]
  rfl

/-! ## Swapped subtrees -/

/-- Replacing a node among bare trees is replacing it and making them bare. -/
theorem replaceAmong_bare (new : Tree) {cs : List Tree}
    (h : ∀ c ∈ cs, ∀ n, replaceAt new.bare n c.bare = (replaceAt new n c).bare) (n : Nat) :
    replaceAmong new.bare n (cs.map bare) = (replaceAmong new n cs).map bare := by
  induction cs generalizing n with
  | nil => rw [List.map_nil, replaceAmong_nil, replaceAmong_nil, List.map_nil]
  | cons c cs ih =>
      rw [List.forall_mem_cons] at h
      rw [List.map_cons, replaceAmong_cons, replaceAmong_cons, size_bare, h.1, ih h.2]
      split <;> rfl

/-- Replacing a node in a bare tree is replacing it and making the tree bare. -/
theorem bare_replaceAt (new : Tree) (n : Nat) (t : Tree) :
    (replaceAt new n t).bare = replaceAt new.bare n t.bare := by
  induction t using Tree.inductionOn generalizing n with
  | node d cs ih =>
      cases n with
      | zero => rw [replaceAt_zero, replaceAt_zero]
      | succ n =>
          rw [replaceAt_succ, bare_node, bare_node, replaceAt_succ,
            replaceAmong_bare new fun c hc n => (ih c hc n).symm]

end Tree

/-! ## The flat view -/

/-- A slot with nothing but the kinds of the nodes in its tree. -/
def Slot.bare (s : Slot) : Slot := { s with tree := s.tree.bare }

/-- A flat view with nothing but the kinds of the nodes. -/
def Arena.bare (a : Arena) : Arena := a.map Slot.bare

namespace Tree

/-- The slots of bare trees are bare, if those of each are. -/
theorem slotsOf_bare {cs : List Tree}
    (h : ∀ c ∈ cs, ∀ id parent, c.bare.slots id parent = (c.slots id parent).map Slot.bare)
    (id parent : Nat) : slotsOf id parent (cs.map bare) = (slotsOf id parent cs).map Slot.bare := by
  induction cs generalizing id with
  | nil => rw [List.map_nil, slotsOf_nil, List.map_nil]
  | cons c cs ih =>
      rw [List.forall_mem_cons] at h
      rw [List.map_cons, slotsOf_cons, slotsOf_cons, h.1, size_bare, ih h.2, List.map_append]

/-- The slots of a bare tree are bare. -/
theorem slots_bare (t : Tree) (id : Nat) (parent : Option Nat) :
    t.bare.slots id parent = (t.slots id parent).map Slot.bare := by
  induction t using Tree.inductionOn generalizing id parent with
  | node d cs ih =>
      rw [bare_node, slots_node, slots_node, numbersFrom_bare, slotsOf_bare ih, List.map_cons,
        Slot.bare, bare_node]

theorem arena_bare (t : Tree) : t.bare.arena = t.arena.bare := by
  rw [arena, slots_bare, arena, Arena.bare, List.map_toArray]

end Tree

namespace Arena

variable (a : Arena) (id : Nat)

theorem getElem?_bare : a.bare[id]? = a[id]?.map Slot.bare := by
  rw [bare, Array.getElem?_map]

theorem size_bare : a.bare.size = a.size := by
  rw [bare, Array.size_map]

theorem subtree?_bare : a.bare.subtree? id = (a.subtree? id).map Tree.bare := by
  rw [subtree?, getElem?_bare, subtree?, Option.map_map, Option.map_map]
  rfl

theorem parent?_bare : a.bare.parent? id = a.parent? id := by
  rw [parent?, getElem?_bare, parent?, Option.bind_map]
  rfl

theorem childrenOf_bare : a.bare.childrenOf id = a.childrenOf id := by
  rw [childrenOf, getElem?_bare, childrenOf, Option.map_map]
  rfl

theorem kind?_bare : a.bare.kind? id = a.kind? id := by
  rw [kind?, getElem?_bare, kind?, Option.map_map]
  congr 1
  funext s
  exact Tree.kind_bare s.tree

/-- A bare flat view keeps the places of the children. -/
theorem isChildAt_bare (parent place : Nat) :
    a.bare.isChildAt parent place id = a.isChildAt parent place id := by
  rw [isChildAt, childrenOf_bare, isChildAt]

theorem ancestorsWithin_bare (n : Nat) : a.bare.ancestorsWithin n id = a.ancestorsWithin n id := by
  induction n generalizing id with
  | zero => rw [ancestorsWithin, ancestorsWithin]
  | succ n ih =>
      rw [ancestorsWithin, ancestorsWithin, parent?_bare]
      simp only [ih]

theorem enclosingMethod?_bare : a.bare.enclosingMethod? id = a.enclosingMethod? id := by
  rw [enclosingMethod?, ancestors, size_bare, ancestorsWithin_bare, enclosingMethod?, ancestors]
  simp only [kind?_bare]

theorem isCondition_bare : a.bare.isCondition id = a.isCondition id := by
  rw [isCondition, parent?_bare, isCondition]
  simp only [kind?_bare, isChildAt_bare]

end Arena

end SharpMutants
