import SharpMutants.Proofs.Numbering
import SharpMutants.Proofs.Layout.Bare
import SharpMutants.Proofs.Soundness

/-!
# Equality up to layout

Trees are compared by their slots: as many of them, and at each number one kind and as many
children (`Arena.Matches`).  `Tree.Agrees` is equality up to layout from the root down.  Both
are the same, because a list of kinds and child counts in preorder is the list of one tree
only (`Tree.bare_eq_iff`).  The range of slots that is compared for a subtree is the subtree
(`Arena.shapeAt_arena`), so subtrees agree when their ranges match.
-/

namespace SharpMutants

/-- Trees that are equal but for layout: the roots are of one kind, and the children agree one by
one. -/
inductive Tree.Agrees : Tree → Tree → Prop
  | node {d e : Node} {cs us : List Tree} (hkind : d.kind = e.kind)
      (hchildren : List.Forall₂ Agrees cs us) : Agrees (.node d cs) (.node e us)

/-- Flat views of one length, with one kind and as many children at each number. -/
def Arena.Matches (a b : Arena) : Prop :=
  a.size = b.size ∧
    ∀ n, n < a.size → a.kind? n = b.kind? n ∧ (a.childrenOf n).length = (b.childrenOf n).length

namespace Tree

variable {s t : Tree} {n : Nat}

/-! ## From the root down -/

/-- Trees in a row agree if they are bare alike, if each two do. -/
theorem forall₂_agrees_iff {cs us : List Tree}
    (h : ∀ c ∈ cs, ∀ u : Tree, c.Agrees u ↔ c.bare = u.bare) :
    List.Forall₂ Agrees cs us ↔ cs.map bare = us.map bare := by
  induction cs generalizing us with
  | nil => cases us <;> simp
  | cons c cs ih =>
      rw [List.forall_mem_cons] at h
      cases us with
      | nil => simp
      | cons u us =>
          rw [List.forall₂_cons, h.1 u, ih h.2, List.map_cons, List.map_cons, List.cons.injEq]

/-- Trees agree if they are the same when laid bare. -/
theorem agrees_iff_bare (s t : Tree) : s.Agrees t ↔ s.bare = t.bare := by
  induction s using Tree.inductionOn generalizing t with
  | node d cs ih =>
      obtain ⟨e, us⟩ := t
      rw [bare_node, bare_node, Tree.node.injEq, ← forall₂_agrees_iff ih]
      constructor
      · rintro ⟨hkind, hchildren⟩
        exact ⟨by rw [Node.bare, hkind, Node.bare], hchildren⟩
      · rintro ⟨hroot, hchildren⟩
        have hkind : d.bare.kind = e.bare.kind := congrArg Node.kind hroot
        exact .node hkind hchildren

/-- Trees agree if they have one shape. -/
theorem agrees_iff_shape (s t : Tree) : s.Agrees t ↔ s.shape = t.shape :=
  (agrees_iff_bare s t).trans bare_eq_iff

/-! ## Slot by slot -/

/-- Trees in a row have as many numbers. -/
theorem length_numbersFrom (id : Nat) (cs : List Tree) :
    (numbersFrom id cs).length = cs.length := by
  induction cs generalizing id with
  | nil => rw [numbersFrom_nil, List.length_nil, List.length_nil]
  | cons c cs ih => rw [numbersFrom_cons, List.length_cons, ih, List.length_cons]

/-- The shape tells the slot at each number. -/
theorem getElem?_shape (h : t.subtree? n = some s) :
    t.shape[n]? = some (s.kind, s.children.length) := by
  rw [shape_eq_map, List.getElem?_map, ← subtree?, h]
  rfl

/-- Flat views match if their trees have one shape. -/
theorem matches_iff_shape (s t : Tree) : s.arena.Matches t.arena ↔ s.shape = t.shape := by
  rw [Arena.Matches, Arena.size_arena, Arena.size_arena]
  constructor
  · rintro ⟨hsize, hslots⟩
    refine List.ext_getElem? fun n => ?_
    by_cases hn : n < s.size
    · obtain ⟨u, hu⟩ := Arena.exists_subtree_iff.mpr (Arena.size_arena s ▸ hn)
      obtain ⟨v, hv⟩ := Arena.exists_subtree_iff.mpr (Arena.size_arena t ▸ hsize ▸ hn)
      obtain ⟨hkind, hlength⟩ := hslots n hn
      rw [Arena.kind?_arena hu, Arena.kind?_arena hv, Option.some.injEq] at hkind
      rw [Arena.childrenOf_arena hu, Arena.childrenOf_arena hv, length_numbersFrom,
        length_numbersFrom] at hlength
      rw [getElem?_shape hu, getElem?_shape hv, hkind, hlength]
    · rw [List.getElem?_eq_none (by rw [length_shape]; omega),
        List.getElem?_eq_none (by rw [length_shape]; omega)]
  · intro hshape
    have hbare : s.bare = t.bare := bare_eq_iff.mpr hshape
    refine ⟨by rw [← length_shape, hshape, length_shape], fun n _ => ⟨?_, ?_⟩⟩
    · rw [← Arena.kind?_bare, ← arena_bare, hbare, arena_bare, Arena.kind?_bare]
    · rw [← Arena.childrenOf_bare, ← arena_bare, hbare, arena_bare, Arena.childrenOf_bare]

/-- Trees that agree have the same links at every number. -/
theorem Agrees.links (h : s.Agrees t) (n : Nat) :
    s.arena.parent? n = t.arena.parent? n ∧ s.arena.childrenOf n = t.arena.childrenOf n := by
  have hbare : s.bare = t.bare := (agrees_iff_bare s t).mp h
  constructor
  · rw [← Arena.parent?_bare, ← arena_bare, hbare, arena_bare, Arena.parent?_bare]
  · rw [← Arena.childrenOf_bare, ← arena_bare, hbare, arena_bare, Arena.childrenOf_bare]

end Tree

/-- What is looked up number by number along a range. -/
theorem filterMap_range_of_forall {α : Type} {f : Nat → Option α} {n : Nat} {found : List α}
    (h : ∀ k, k < found.length → f (n + k) = found[k]?) :
    (List.range' n found.length).filterMap f = found := by
  induction found generalizing n with
  | nil => rfl
  | cons x found ih =>
      have hfirst : f n = some x := h 0 (by simp)
      rw [List.length_cons, List.range'_succ, List.filterMap_cons_some hfirst, ih]
      intro k hk
      rw [Nat.add_assoc, h (1 + k) (by rw [List.length_cons]; omega), Nat.add_comm,
        List.getElem?_cons_succ]

/-- **The slots compared for a subtree are the subtree.** -/
theorem Arena.shapeAt_arena {t s : Tree} {n : Nat} (h : t.subtree? n = some s) :
    t.arena.shapeAt n = s.shape := by
  have hslots : ∀ k, k < s.shape.length →
      (t.arena[n + k]?.map fun e => (e.node.kind, e.children.length)) = s.shape[k]? := by
    intro k hk
    rw [Tree.length_shape] at hk
    obtain ⟨u, hu⟩ := Arena.exists_subtree_iff.mpr (Arena.size_arena s ▸ hk)
    have hsub : t.subtree? (n + k) = some u := by rw [Tree.subtree?_add h hk, hu]
    obtain ⟨p, hp, -⟩ := Tree.exists_slot hsub 0 none
    rw [Tree.arena, List.getElem?_toArray, hp, Tree.getElem?_shape hu, Option.map_some,
      Tree.length_numbersFrom]
    rfl
  rw [shapeAt, descendants_arena h, ← Tree.length_shape, filterMap_range_of_forall hslots]

namespace Document

/-- **Equality up to layout is equality of the trees.**  Documents have the same shape exactly
when their slots match, and exactly when their trees agree from the root down; then every number
has one parent and the same children in both.  Subtrees have the same shape exactly when they
agree. -/
theorem sameShape_iff_agrees (d e : Document) :
    (d.sameShape e = true ↔ d.arena.Matches e.arena) ∧
    (d.sameShape e = true ↔ d.tree.Agrees e.tree) ∧
    (d.sameShape e = true → ∀ n, d.arena.parent? n = e.arena.parent? n ∧
      d.arena.childrenOf n = e.arena.childrenOf n) ∧
    ∀ a b s t, d.subtree? a = some s → e.subtree? b = some t →
      (d.sameShapeAt a e b = true ↔ s.Agrees t) := by
  have hshape : d.sameShape e = true ↔ d.tree.shape = e.tree.shape := by
    rw [sameShape, Tree.sameShape, beq_iff_eq]
  have hagrees : d.sameShape e = true ↔ d.tree.Agrees e.tree :=
    hshape.trans (Tree.agrees_iff_shape _ _).symm
  refine ⟨hshape.trans (Tree.matches_iff_shape _ _).symm, hagrees,
    fun h n => (hagrees.mp h).links n, fun a b s t ha hb => ?_⟩
  rw [sameShapeAt, beq_iff_eq, arena, arena, Arena.shapeAt_arena ha, Arena.shapeAt_arena hb,
    Tree.agrees_iff_shape]

/-- Two layouts of one class, in which a sum stands twice. -/
theorem sameShape_iff_agrees_twice : ∃ d e,
    parse "class A \x7b int F(int a) \x7b a = a + 1; return a + 1; \x7d \x7d".toList = .ok d ∧
    parse "class A\x7bint F(int a)\x7ba=a+1;return/* again */a+1;\x7d\x7d".toList = .ok e ∧
    d.tree.Agrees e.tree ∧ d.arena.parent? 12 = e.arena.parent? 12 ∧
    ∃ s t, d.subtree? 8 = some s ∧ e.subtree? 12 = some t ∧ s.Agrees t := by
  have hread : (parse
      "class A \x7b int F(int a) \x7b a = a + 1; return a + 1; \x7d \x7d".toList).toOption.any
        (fun d => (parse
          "class A\x7bint F(int a)\x7ba=a+1;return/* again */a+1;\x7d\x7d".toList).toOption.any
            fun e => d.sameShape e && (d.sameShapeAt 8 e 12 &&
              ((d.subtree? 8).isSome && (e.subtree? 12).isSome))) = true := by
    decide +kernel
  obtain ⟨d, hd, hread⟩ := exists_document_of_any hread
  obtain ⟨e, he, hread⟩ := exists_document_of_any hread
  rw [Bool.and_eq_true, Bool.and_eq_true, Bool.and_eq_true] at hread
  obtain ⟨hwhole, hsums, hfirst, hsecond⟩ := hread
  obtain ⟨s, hs⟩ := Option.isSome_iff_exists.mp hfirst
  obtain ⟨t, ht⟩ := Option.isSome_iff_exists.mp hsecond
  obtain ⟨-, hagrees, hlinks, hsubtrees⟩ := sameShape_iff_agrees d e
  exact ⟨d, e, hd, he, hagrees.mp hwhole, (hlinks hwhole 12).1, s, t, hs, ht,
    (hsubtrees 8 12 s t hs ht).mp hsums⟩

end Document

end SharpMutants
