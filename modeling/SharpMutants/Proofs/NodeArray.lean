import SharpMutants.Syntax.Renumber
import SharpMutants.Proofs.Substitution

/-!
# The array of nodes from the reader through every edit

The reader's nodes may stand in any order (`FlatTree.Stores`).  What is below a node is taken and
put out before the rest of the stack is looked at (`takeAll_tree`), so the array that comes out is
the flat view of the tree (`renumbered_eq`).  An edit leads from one such array to another as long
as its graft keeps nodes that are there (`Regrafts.exists_document`), and so does any number of
edits (`exists_document_of_regrafts`).  Preorder is then a matter of flat views:
`FlatTree.preorder_of_regrafts`.
-/

namespace SharpMutants

namespace FlatTree

/-! ## Nodes in any order -/

mutual

/-- A tree stands in an array with its root at a place, and each node at a place of its own. -/
inductive Stores (raw : FlatTree) : Nat → Tree → List Nat → Prop
  | node {id : Nat} {d : Node} {parent : Option Nat} {children : List Nat} {cs : List Tree}
      {below : List Nat} (hnode : raw[id]? = some ⟨d, parent, children⟩)
      (hbelow : StoresAll raw children cs below) (hapart : id ∉ below) :
      Stores raw id (.node d cs) (id :: below)

/-- The trees of a list stand in an array, apart from each other. -/
inductive StoresAll (raw : FlatTree) : List Nat → List Tree → List Nat → Prop
  | nil : StoresAll raw [] [] []
  | cons {id : Nat} {ids : List Nat} {c : Tree} {cs : List Tree} {first rest : List Nat}
      (hfirst : Stores raw id c first) (hrest : StoresAll raw ids cs rest)
      (hapart : first.Disjoint rest) : StoresAll raw (id :: ids) (c :: cs) (first ++ rest)

end

/-- Announcing a child to a parent adds no node. -/
theorem size_announce (out : FlatTree) (parent : Option Nat) :
    (announce out parent).size = out.size := by
  cases parent with
  | none => rfl
  | some parent => exact size_adopt out parent _

/-- Taking a node that is there moves it to the end of the array taken. -/
theorem takeAll_there {slots : Array (Option Links)} {id : Nat} {l : Links}
    (h : slots[id]? = some (some l)) (out : FlatTree) (parent : Option Nat)
    (stack : List (Nat × Option Nat)) :
    takeAll slots out ((id, parent) :: stack) =
      takeAll (slots.setIfInBounds id none) ((announce out parent).push ⟨l.node, parent, []⟩)
        (l.children.map (·, some out.size) ++ stack) := by
  rw [takeAll]
  split
  · rename_i l' hl'
    obtain rfl : l = l' := Option.some.inj (Option.some.inj (h.symm.trans hl'))
    rfl
  · rename_i hnot
    exact absurd h (hnot l)

variable {raw : FlatTree}

mutual

/-- **A tree on top of the stack is put out whole**, and only its nodes are taken. -/
theorem takeAll_tree {id : Nat} {t : Tree} {used : List Nat} : raw.Stores id t used →
    ∀ slots : Array (Option Links), (∀ i ∈ used, slots[i]? = raw[i]?.map some) →
    ∀ (out : FlatTree) (parent : Option Nat) (stack : List (Nat × Option Nat)), ∃ left,
      (∀ i, i ∉ used → left[i]? = slots[i]?) ∧
      takeAll slots out ((id, parent) :: stack) =
        takeAll left (announce out parent ++ (t.links out.size parent).toArray) stack
  | @Stores.node _ _ d _ _ _ _ hnode hbelow hapart, slots, hfree, out, parent, stack => by
    rw [List.forall_mem_cons, hnode] at hfree
    have hothers : ∀ i, i ≠ id → (slots.setIfInBounds id none)[i]? = slots[i]? := fun i hi =>
      Array.getElem?_setIfInBounds_ne hi.symm
    obtain ⟨left, hleft, htaken⟩ := takeAll_trees hbelow (slots.setIfInBounds id none)
      (fun i hi => (hothers i fun h => hapart (h ▸ hi)).trans (hfree.2 i hi))
      ((announce out parent).push ⟨d, parent, []⟩) out.size
      (by rw [Array.size_push, size_announce]; exact Nat.lt_succ_self _) stack
    refine ⟨left, fun i hi => ?_, ?_⟩
    · rw [List.mem_cons, not_or] at hi
      rw [hleft i hi.2, hothers i hi.1]
    · have hput := withChildren_push (announce out parent) d parent
      rw [size_announce] at hput
      rw [takeAll_there hfree.1, htaken, hput]

/-- **Taking the trees of a list** from an array appends their nodes in preorder and leaves the
other places. -/
theorem takeAll_trees {ids : List Nat} {cs : List Tree} {used : List Nat} :
    raw.StoresAll ids cs used →
    ∀ slots : Array (Option Links), (∀ i ∈ used, slots[i]? = raw[i]?.map some) →
    ∀ (out : FlatTree) (parent : Nat), parent < out.size →
    ∀ stack : List (Nat × Option Nat), ∃ left, (∀ i, i ∉ used → left[i]? = slots[i]?) ∧
      takeAll slots out (ids.map (·, some parent) ++ stack) =
        takeAll left (withChildren out parent cs) stack
  | .nil, slots, _, out, parent, _, stack => by
    refine ⟨slots, fun _ _ => rfl, ?_⟩
    rw [withChildren_nil]
    rfl
  | @StoresAll.cons _ _ ids c _ _ _ hfirst hrest hapart, slots, hfree, out, parent, hparent,
      stack => by
    rw [List.forall_mem_append] at hfree
    obtain ⟨middle, hmiddle, htaken⟩ := takeAll_tree hfirst slots hfree.1 out (some parent)
      (ids.map (·, some parent) ++ stack)
    rw [announce, ← adopt_append _ _ hparent, withChildren_one hparent] at htaken
    obtain ⟨left, hleft, hothers⟩ := takeAll_trees hrest middle
      (fun i hi => (hmiddle i fun h => hapart h hi).trans (hfree.2 i hi))
      (withChildren out parent [c]) parent (by rw [size_withChildren]; omega) stack
    refine ⟨left, fun i hi => ?_, ?_⟩
    · rw [List.mem_append, not_or] at hi
      rw [hleft i hi.2, hmiddle i hi.1]
    · rw [withChildren_append hparent, List.singleton_append] at hothers
      exact htaken.trans hothers

end

/-- **Nodes in any order come out in preorder.** -/
theorem renumbered_eq {root : Nat} {t : Tree} {used : List Nat} (h : raw.Stores root t used) :
    raw.renumbered root = t.arena.flat := by
  obtain ⟨left, -, htaken⟩ :=
    takeAll_tree h (raw.map some) (fun i _ => Array.getElem?_map) #[] none []
  rw [renumbered, htaken, takeAll, announce, Tree.flat_arena]
  simp

end FlatTree

/-! ## The reader's order -/

namespace Tree

mutual

/-- As many nodes are pushed as a tree has. -/
theorem length_pushedFrom : ∀ (id : Nat) (t : Tree), (t.pushedFrom id).length = t.size
  | id, node d cs => by
    rw [pushedFrom, List.length_append, length_pushedAllFrom id cs, size_node, Nat.add_comm]
    rfl

/-- As many nodes are pushed as the trees of a list have. -/
theorem length_pushedAllFrom : ∀ (id : Nat) (cs : List Tree),
    (pushedAllFrom id cs).length = sizes cs
  | id, [] => by rw [pushedAllFrom, sizes]; rfl
  | id, c :: cs => by
    rw [pushedAllFrom, List.length_append, length_pushedFrom id c,
      length_pushedAllFrom (id + c.size) cs, sizes]

end

mutual

/-- A tree put out somewhere in an array stands there, its root last. -/
theorem stores_of_pushed {raw : FlatTree} : ∀ (id : Nat) (t : Tree),
    (∀ k, k < t.size → raw[id + k]? = (t.pushedFrom id)[k]?) →
    ∃ used, (∀ i ∈ used, id ≤ i ∧ i < id + t.size) ∧ raw.Stores (id + t.size - 1) t used
  | id, node d cs, hraw => by
    rw [size_node] at hraw
    have hlength := length_pushedAllFrom id cs
    obtain ⟨below, hbounds, hbelow⟩ := storesAll_of_pushed _ cs fun k hk => by
      rw [hraw k (by omega), pushedFrom, List.getElem?_append_left (by omega)]
    have hroot : raw[id + sizes cs]? = some ⟨d, none, lastNumbersFrom id cs⟩ := by
      rw [hraw _ (by omega), pushedFrom, List.getElem?_append_right (by omega), hlength,
        Nat.sub_self]
      rfl
    rw [size_node, show id + (1 + sizes cs) - 1 = id + sizes cs by omega]
    refine ⟨(id + sizes cs) :: below, List.forall_mem_cons.mpr ⟨by omega, fun i hi => ?_⟩,
      .node hroot hbelow fun hmem => ?_⟩
    · have := hbounds i hi
      omega
    · have := hbounds _ hmem
      omega

/-- The trees of a list stand where their nodes have been pushed. -/
theorem storesAll_of_pushed {raw : FlatTree} : ∀ (id : Nat) (cs : List Tree),
    (∀ k, k < sizes cs → raw[id + k]? = (pushedAllFrom id cs)[k]?) →
    ∃ used, (∀ i ∈ used, id ≤ i ∧ i < id + sizes cs) ∧
      raw.StoresAll (lastNumbersFrom id cs) cs used
  | id, [], _ => by
    rw [lastNumbersFrom, numberFrom_nil]
    exact ⟨[], fun i hi => (List.not_mem_nil hi).elim, .nil⟩
  | id, c :: cs, hraw => by
    rw [sizes] at hraw
    have hlength := length_pushedFrom id c
    obtain ⟨first, hfirst, hc⟩ := stores_of_pushed _ c fun k hk => by
      rw [hraw k (by omega), pushedAllFrom, List.getElem?_append_left (by omega)]
    obtain ⟨rest, hrest, hcs⟩ := storesAll_of_pushed (id + c.size) cs fun k hk => by
      rw [Nat.add_assoc, hraw _ (by omega), pushedAllFrom, List.getElem?_append_right (by omega),
        hlength, Nat.add_sub_cancel_left]
    refine ⟨first ++ rest, List.forall_mem_append.mpr ⟨fun i hi => ?_, fun i hi => ?_⟩, ?_⟩
    · have := hfirst i hi
      rw [sizes]
      omega
    · have := hrest i hi
      rw [sizes]
      omega
    · rw [lastNumbersFrom, numberFrom_cons]
      refine .cons hc hcs fun i hi hi' => ?_
      have := hfirst i hi
      have := hrest i hi'
      omega

end

/-- **The reader's nodes are those of the tree**, the root being the last of them. -/
theorem stores_pushed (t : Tree) : ∃ used, t.pushed.Stores (t.size - 1) t used := by
  have hraw : ∀ k, k < t.size → t.pushed[0 + k]? = (t.pushedFrom 0)[k]? := fun k _ => by
    rw [Nat.zero_add, pushed, List.getElem?_toArray]
  obtain ⟨used, -, hstores⟩ := stores_of_pushed 0 t hraw
  rw [Nat.zero_add] at hstores
  exact ⟨used, hstores⟩

end Tree

/-! ## Edits -/

namespace Outline

mutual

/-- The numbers of the nodes that an outline keeps. -/
def keptIds : Outline → List Nat
  | kept id => [id]
  | fresh _ _ _ _ children => keptIdsOf children

/-- The numbers of the nodes that the outlines of a list keep. -/
def keptIdsOf : List Outline → List Nat
  | [] => []
  | g :: gs => g.keptIds ++ keptIdsOf gs

end

variable {d : Document}

mutual

/-- An outline that keeps nodes of a document stands for a graft over it. -/
theorem exists_graft : ∀ {g : Outline}, (∀ id ∈ g.keptIds, id < d.arena.size) →
    ∃ graft, g.graft? d = some graft
  | kept id, hkept => by
    obtain ⟨t, ht⟩ := Arena.exists_subtree_iff.mpr (hkept id (by rw [keptIds]; simp))
    exact ⟨.kept t, by rw [graft?, Document.subtree?, ht]; rfl⟩
  | fresh kind span token trailing children, hkept => by
    rw [keptIds] at hkept
    obtain ⟨grafts, hgrafts⟩ := exists_grafts hkept
    exact ⟨.fresh kind span token trailing grafts, by rw [graft?, hgrafts]; rfl⟩

/-- Outlines that keep nodes of a document stand for grafts. -/
theorem exists_grafts : ∀ {gs : List Outline}, (∀ id ∈ keptIdsOf gs, id < d.arena.size) →
    ∃ grafts, grafts? d gs = some grafts
  | [], _ => ⟨[], by rw [grafts?]⟩
  | g :: gs, hkept => by
    rw [keptIdsOf, List.forall_mem_append] at hkept
    obtain ⟨graft, hgraft⟩ := exists_graft hkept.1
    obtain ⟨grafts, hgrafts⟩ := exists_grafts hkept.2
    exact ⟨graft :: grafts, by rw [grafts?, hgraft, hgrafts]⟩

end

end Outline

namespace FlatTree

/-- One edit leads from an array to another: any target, there or not, and any graft that keeps
nodes of the array. -/
def Regrafts (a b : FlatTree) : Prop :=
  ∃ target g, (∀ id ∈ Outline.keptIds g, id < a.size) ∧ b = a.regraft target g

/-- After an edit the array is that of a document. -/
theorem Regrafts.exists_document {d : Document} {b : FlatTree} (h : Regrafts d.arena.flat b) :
    ∃ e : Document, b = e.arena.flat := by
  obtain ⟨target, g, hkept, rfl⟩ := h
  rw [Arena.flat, Array.size_map] at hkept
  obtain ⟨graft, hgraft⟩ := Outline.exists_graft hkept
  exact ⟨d.replace target graft, regraft_eq hgraft target⟩

/-- After any edits the array is that of a document. -/
theorem exists_document_of_regrafts {d : Document} {a : FlatTree}
    (h : Relation.ReflTransGen Regrafts d.arena.flat a) : ∃ e : Document, a = e.arena.flat := by
  induction h with
  | refl => exact ⟨d, rfl⟩
  | tail _ hlast ih =>
      obtain ⟨e, rfl⟩ := ih
      exact hlast.exists_document

/-- **The array of nodes stands in preorder from the reader on.**  Whatever order the nodes of a
tree are read in, and whatever edits follow, at nodes that are there or not, with whatever grafts of
nodes that are there, the array is the flat view of a document; its nodes are numbered in preorder,
and the next edit exchanges the range of slots below its target for the nodes of its graft. -/
theorem preorder_of_regrafts {raw a : FlatTree} {root : Nat} {d : Document} {used : List Nat}
    (hread : raw.Stores root d.tree used)
    (hedits : Relation.ReflTransGen Regrafts (raw.renumbered root) a) :
    ∃ e : Document, a = e.arena.flat ∧ e.arena.IsPreorder ∧
      ∀ target graft, e.Exchanges target graft := by
  rw [renumbered_eq hread, ← Document.arena] at hedits
  obtain ⟨e, he⟩ := exists_document_of_regrafts hedits
  exact ⟨e, he, Arena.isPreorder_arena _, Document.exchanges e⟩

/-- A sum makes way for a graft that has it and, twice, the assignment around it; then nothing
makes way for the whole tree. -/
theorem preorder_of_regrafts_nested : ∃ d used a,
    parse "class A \x7b int F(int a) \x7b a = a + 1; return a; \x7d \x7d".toList = .ok d ∧
    d.tree.pushed.Stores (d.tree.size - 1) d.tree used ∧
    Relation.ReflTransGen Regrafts (d.tree.pushed.renumbered (d.tree.size - 1)) a ∧
    a = (d.arena.flat.regraft 8 (.fresh .block none none (some "new")
      [.kept 6, .fresh .parenthesized none none none [.kept 8], .kept 6])).regraft 99 (.kept 0) ∧
    ∃ e : Document, a = e.arena.flat ∧ e.arena.IsPreorder ∧
      ∀ target graft, e.Exchanges target graft := by
  have hread : (parse
      "class A \x7b int F(int a) \x7b a = a + 1; return a; \x7d \x7d".toList).toOption.any
        (fun d => decide (8 < d.arena.flat.size) &&
          decide (0 < (d.arena.flat.regraft 8 (.fresh .block none none (some "new")
            [.kept 6, .fresh .parenthesized none none none [.kept 8], .kept 6])).size)) = true := by
    decide +kernel
  obtain ⟨d, hd, hread⟩ := exists_document_of_any hread
  rw [Bool.and_eq_true, decide_eq_true_eq, decide_eq_true_eq] at hread
  obtain ⟨hfirst, hsecond⟩ := hread
  obtain ⟨used, hstores⟩ := d.tree.stores_pushed
  have hedits : Relation.ReflTransGen Regrafts (d.tree.pushed.renumbered (d.tree.size - 1))
      ((d.arena.flat.regraft 8 (.fresh .block none none (some "new")
        [.kept 6, .fresh .parenthesized none none none [.kept 8], .kept 6])).regraft 99
          (.kept 0)) := by
    rw [renumbered_eq hstores, ← Document.arena]
    refine .tail (.single ⟨8, _, ?_, rfl⟩) ⟨99, _, ?_, rfl⟩
    · intro id hid
      simp only [Outline.keptIds, Outline.keptIdsOf, List.mem_append, List.mem_singleton,
        List.not_mem_nil, or_false] at hid
      omega
    · intro id hid
      simp only [Outline.keptIds, List.mem_singleton] at hid
      omega
  exact ⟨d, used, _, hd, hstores, hedits, rfl, preorder_of_regrafts hstores hedits⟩

end FlatTree

end SharpMutants
