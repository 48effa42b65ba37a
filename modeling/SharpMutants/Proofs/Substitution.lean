import SharpMutants.Syntax.Regraft
import SharpMutants.Proofs.Numbering
import SharpMutants.Proofs.Soundness

/-!
# Edits are substitutions

A frame is a tree with a gap for a subtree.  An edit keeps the frame of its target and fills
the gap with the tree of the graft (`Tree.exists_frame`): the nodes before the gap and behind
it are those of the frame, whatever fills the gap (`Tree.Frame.subtrees_fill`).

The same edit done on the flat view, node by node (`FlatTree.regraft`), puts out the flat view
of the new tree.  Two facts carry this: a copy in which no graft is waiting, or which does not
come past the target, puts out the links of the subtree that it copies (`copyInto_away`); a copy
that comes past the target uses the graft up there, so what comes behind is a copy of the first
sort (`copyInto_through`).  Both are put together from the children by `withChildren`, what a node
looks like when all its children have been put out behind it.
-/

namespace SharpMutants

/-! ## Frames -/

/-- A tree with a gap for a subtree. -/
inductive Tree.Frame where
  /-- All of the tree is left out. -/
  | gap
  /-- The gap is in a child that stands between others. -/
  | inside (root : Node) (left : List Tree) (child : Frame) (right : List Tree)

namespace Tree

variable {t s old : Tree} {n id : Nat}

/-- The tree that a subtree in the gap makes. -/
def Frame.fill (s : Tree) : Frame → Tree
  | gap => s
  | inside d left child right => .node d (left ++ child.fill s :: right)

/-- The number of the node that stands in the gap. -/
def Frame.number : Frame → Nat
  | gap => 0
  | inside _ left child _ => 1 + (sizes left + child.number)

/-- A subtree stands in a frame, and to replace it is to fill the frame. -/
theorem exists_frame (h : t.subtree? n = some old) :
    ∃ f : Frame, f.number = n ∧ f.fill old = t ∧ ∀ new, replaceAt new n t = f.fill new := by
  induction n using Nat.strongRecOn generalizing t with
  | ind n ih =>
      obtain ⟨d, cs⟩ := t
      cases n with
      | zero =>
          rw [subtree?, getElem?_subtrees_zero, Option.some.injEq] at h
          exact ⟨.gap, rfl, h.symm, fun new => replaceAt_zero new _⟩
      | succ n =>
          rw [subtree?, subtrees_node, List.getElem?_cons_succ] at h
          obtain ⟨ls, c, rs, k, rfl, rfl, hc, hreplace⟩ := exists_child h
          obtain ⟨f, hnumber, hfill, hall⟩ := ih k (by omega) hc
          refine ⟨.inside d ls f rs, ?_, ?_, fun new => ?_⟩
          · rw [Frame.number, hnumber, Nat.add_comm]
          · rw [Frame.fill, hfill]
          · rw [replaceAt_succ, hreplace, hall, Frame.fill]

theorem size_le_sizes {u : Tree} {cs : List Tree} (h : u ∈ cs) : u.size ≤ sizes cs := by
  obtain ⟨ls, rs, rfl⟩ := List.append_of_mem h
  rw [sizes_append, sizes]
  omega

/-- The numbered trees of two lists in a row are those of the first and of the second behind it. -/
theorem numberFrom_append (id : Nat) (ls rs : List Tree) :
    numberFrom id (ls ++ rs) = numberFrom id ls ++ numberFrom (id + sizes ls) rs := by
  induction ls generalizing id with
  | nil => rw [List.nil_append, numberFrom_nil, List.nil_append, sizes, Nat.add_zero]
  | cons c ls ih =>
      rw [List.cons_append, numberFrom_cons, numberFrom_cons, ih, sizes, List.cons_append,
        Nat.add_assoc]

/-- The subtrees of two lists are those of both. -/
theorem subtreesOf_append (ls rs : List Tree) :
    subtreesOf (ls ++ rs) = subtreesOf ls ++ subtreesOf rs := by
  induction ls with
  | nil => rw [List.nil_append, subtreesOf_nil, List.nil_append]
  | cons c ls ih => rw [List.cons_append, subtreesOf_cons, subtreesOf_cons, ih, List.append_assoc]

/-- **The nodes outside the gap are those of the frame**: the nodes before it, apart from what is
below them, and the subtrees behind it. -/
theorem Frame.subtrees_fill (f : Frame) : ∃ (roots : List Node) (behind : List Tree),
    roots.length = f.number ∧ ∀ s, ∃ before,
      (f.fill s).subtrees = before ++ (s.subtrees ++ behind) ∧ before.map Tree.root = roots := by
  induction f with
  | gap =>
      refine ⟨[], [], rfl, fun s => ⟨[], ?_, rfl⟩⟩
      rw [fill, List.nil_append, List.append_nil]
  | inside d left child right ih =>
      obtain ⟨roots, behind, hlength, hfill⟩ := ih
      refine ⟨d :: ((subtreesOf left).map Tree.root ++ roots), behind ++ subtreesOf right, ?_,
        fun s => ?_⟩
      · rw [List.length_cons, List.length_append, List.length_map, length_subtreesOf, hlength,
          number, Nat.add_comm]
      · obtain ⟨before, hsubtrees, hroots⟩ := hfill s
        refine ⟨.node d (left ++ child.fill s :: right) :: (subtreesOf left ++ before), ?_, ?_⟩
        · rw [fill, subtrees_node, subtreesOf_append, subtreesOf_cons, hsubtrees]
          simp only [List.append_assoc, List.cons_append]
        · rw [List.map_cons, List.map_append, hroots, root]

/-- The links of a subtree's node in the flat view. -/
theorem exists_links (h : t.subtree? id = some s) :
    ∃ p, t.arena.flat[id]? = some ⟨s.root, p, numbersFrom (id + 1) s.children⟩ := by
  obtain ⟨p, hslot, -⟩ := exists_slot h 0 none
  refine ⟨p, ?_⟩
  rw [Arena.flat, Array.getElem?_map, arena, List.getElem?_toArray, hslot, Nat.zero_add]
  rfl

/-- The flat array of a tree is its links. -/
theorem flat_arena (t : Tree) : t.arena.flat = (t.links 0 none).toArray := by
  rw [Arena.flat, arena, List.map_toArray, links]

end Tree

/-! ## Copies -/

/-- Outlines in a row stand for a graft and those of the others. -/
theorem Outline.grafts?_cons {d : Document} {g : Outline} {gs : List Outline}
    {grafts : List Graft} (h : grafts? d (g :: gs) = some grafts) :
    ∃ graft rest, g.graft? d = some graft ∧ grafts? d gs = some rest ∧ grafts = graft :: rest := by
  rw [grafts?] at h
  split at h
  · exact ⟨_, _, ‹_›, ‹_›, (Option.some.inj h).symm⟩
  · cases h

namespace FlatTree

open SharpMutants.Tree (links linksOf numbersFrom sizes)

variable {out : FlatTree} {q : Nat}

/-- Adopting children adds no node. -/
theorem size_adopt (out : FlatTree) (q : Nat) (ids : List Nat) :
    (adopt out q ids).size = out.size := Array.size_modify

/-- Adopting children changes the node that adopts them only. -/
theorem getElem?_adopt (out : FlatTree) (q : Nat) (ids : List Nat) (i : Nat) :
    (adopt out q ids)[i]? =
      if q = i then out[i]?.map fun l => { l with children := l.children ++ ids } else out[i]? :=
  Array.getElem?_modify

theorem adopt_nil (out : FlatTree) (q : Nat) : adopt out q [] = out := by
  refine Array.ext_getElem? fun i => ?_
  rw [getElem?_adopt]
  split <;> simp

/-- Nodes behind the one that adopts children stay as they are. -/
theorem adopt_append (more : FlatTree) (ids : List Nat) (hq : q < out.size) :
    adopt (out ++ more) q ids = adopt out q ids ++ more := by
  refine Array.ext_getElem? fun i => ?_
  rw [getElem?_adopt, Array.getElem?_append, Array.getElem?_append, getElem?_adopt, size_adopt]
  split <;> split <;> first | rfl | omega

/-- Children that are adopted one after another are adopted in a row. -/
theorem adopt_adopt (out : FlatTree) (q : Nat) (ids more : List Nat) :
    adopt (adopt out q ids) q more = adopt out q (ids ++ more) := by
  refine Array.ext_getElem? fun i => ?_
  rw [getElem?_adopt, getElem?_adopt, getElem?_adopt]
  split
  · simp [Function.comp_def]
  · rfl

/-- A node that has just been put out adopts children. -/
theorem adopt_push (out : FlatTree) (d : Node) (p : Option Nat) (ids : List Nat) :
    adopt (out.push ⟨d, p, []⟩) out.size ids = out.push ⟨d, p, ids⟩ := by
  refine Array.ext_getElem? fun i => ?_
  rw [getElem?_adopt, Array.getElem?_push, Array.getElem?_push]
  split <;> split <;> first | rfl | omega

/-- What is put out when further children of a node, with all below them, have been put out. -/
def withChildren (out : FlatTree) (q : Nat) (cs : List Tree) : FlatTree :=
  adopt out q (numbersFrom out.size cs) ++ (linksOf out.size q cs).toArray

theorem withChildren_nil (out : FlatTree) (q : Nat) : withChildren out q [] = out := by
  rw [withChildren, Tree.numbersFrom_nil, Tree.linksOf_nil, adopt_nil]
  simp

/-- As many links are put out as the trees of a list have nodes. -/
theorem length_linksOf (id parent : Nat) (cs : List Tree) :
    (linksOf id parent cs).length = sizes cs := by
  rw [linksOf, List.length_map, ← Tree.length_subtreesOf, ← Tree.map_tree_slotsOf, List.length_map]

/-- Putting out children adds their nodes. -/
theorem size_withChildren (out : FlatTree) (q : Nat) (cs : List Tree) :
    (withChildren out q cs).size = out.size + sizes cs := by
  rw [withChildren, Array.size_append, size_adopt, ← length_linksOf out.size q cs]
  rfl

/-- Children come after children. -/
theorem withChildren_append (hq : q < out.size) (ls rs : List Tree) :
    withChildren (withChildren out q ls) q rs = withChildren out q (ls ++ rs) := by
  have hsize := size_withChildren out q ls
  rw [withChildren, hsize, withChildren, adopt_append _ _ (by rwa [size_adopt]), adopt_adopt,
    withChildren, Tree.numbersFrom_append, Tree.linksOf_append, Array.append_assoc]
  simp

/-- One child is put out and then made known to its parent. -/
theorem withChildren_one (hq : q < out.size) (c : Tree) :
    adopt (out ++ (c.links out.size (some q)).toArray) q [out.size] = withChildren out q [c] := by
  rw [adopt_append _ _ hq, withChildren, Tree.numbersFrom_cons, Tree.numbersFrom_nil,
    Tree.linksOf_cons, Tree.linksOf_nil, List.append_nil]

/-- A node is put out when all its children have been. -/
theorem withChildren_push (out : FlatTree) (d : Node) (p : Option Nat) (cs : List Tree) :
    withChildren (out.push ⟨d, p, []⟩) out.size cs =
      out ++ ((Tree.node d cs).links out.size p).toArray := by
  rw [withChildren, Array.size_push, adopt_push, Tree.links_node, ← Array.append_singleton,
    Array.append_assoc]
  simp

section

variable {t new : Tree} {put : Option Nat → Span → FlatTree → Outline → FlatTree} {target : Nat}

/-- A step of the copy of a node: a child is copied and made known to it. -/
def copyChild (a : FlatTree) (put : Option Nat → Span → FlatTree → Outline → FlatTree)
    (target levels new : Nat) (c : Copy) (child : Nat) : Copy :=
  let copied := copyInto a put target levels child (some new) c
  { copied with out := adopt copied.out new [c.out.size] }

/-- No graft is waiting, or the range of so many nodes does not have the target. -/
def Away (target id size : Nat) (waiting : Option Outline) : Prop :=
  waiting = none ∨ target < id ∨ id + size ≤ target

/-- A node is copied by copying its children, one after another. -/
theorem copyInto_node {d : Node} {cs : List Tree} {id : Nat}
    (h : t.subtree? id = some (.node d cs)) (levels : Nat) (parent : Option Nat) (c : Copy)
    (haway : id = target → c.waiting = none) :
    copyInto t.arena.flat put target (levels + 1) id parent c =
      (numbersFrom (id + 1) cs).foldl (copyChild t.arena.flat put target levels c.out.size)
        { c with out := c.out.push ⟨d, parent, []⟩ } := by
  obtain ⟨p, hlinks⟩ := Tree.exists_links h
  have hcopies : (if id = target then c.waiting else none) = none := by
    split
    · exact haway ‹_›
    · rfl
  rw [copyInto, hlinks]
  dsimp only
  rw [hcopies]
  rfl

/-- Children away from the target are copied one after another. -/
theorem foldl_copyChild {levels : Nat} {cs : List Tree}
    (hcopy : ∀ u ∈ cs, ∀ id c, t.subtree? id = some u → Away target id u.size c.waiting →
      copyInto t.arena.flat put target levels id (some q) c =
        { c with out := c.out ++ (u.links c.out.size (some q)).toArray })
    (id : Nat) (hcs : ∀ e ∈ Tree.numberFrom id cs, t.subtree? e.1 = some e.2) (c : Copy)
    (hq : q < c.out.size) (haway : Away target id (sizes cs) c.waiting) :
    (numbersFrom id cs).foldl (copyChild t.arena.flat put target levels q) c =
      { c with out := withChildren c.out q cs } := by
  induction cs generalizing id c with
  | nil => rw [Tree.numbersFrom_nil, List.foldl_nil, withChildren_nil]
  | cons u cs ih =>
      rw [List.forall_mem_cons] at hcopy
      rw [Tree.numberFrom_cons, List.forall_mem_cons] at hcs
      rw [sizes] at haway
      have hfirst : Away target id u.size c.waiting :=
        haway.imp_right fun h => h.imp_right fun h => by omega
      have hrest : Away target (id + u.size) (sizes cs) c.waiting :=
        haway.imp_right fun h => by omega
      rw [Tree.numbersFrom_cons, List.foldl_cons, copyChild, hcopy.1 id c hcs.1 hfirst]
      dsimp only
      rw [withChildren_one hq, ih hcopy.2 _ hcs.2]
      · rw [withChildren_append hq, List.singleton_append]
      · rw [size_withChildren]
        omega
      · exact hrest

/-- **A copy away from the target** puts out the links of the subtree that it copies. -/
theorem copyInto_away {s : Tree} {id levels : Nat} (h : t.subtree? id = some s)
    (hlevels : s.size ≤ levels) (parent : Option Nat) (c : Copy)
    (haway : Away target id s.size c.waiting) :
    copyInto t.arena.flat put target levels id parent c =
      { c with out := c.out ++ (s.links c.out.size parent).toArray } := by
  induction s using Tree.inductionOn generalizing id levels parent c with
  | node d cs ih =>
      rw [Tree.size_node] at hlevels haway
      cases levels with
      | zero => omega
      | succ levels =>
          have hroot : id = target → c.waiting = none := fun hid =>
            haway.resolve_right fun h => by omega
          have hbelow : Away target (id + 1) (sizes cs) c.waiting :=
            haway.imp_right fun h => by omega
          have hcopy : ∀ u ∈ cs, ∀ id c', t.subtree? id = some u →
              Away target id u.size c'.waiting →
              copyInto t.arena.flat put target levels id (some c.out.size) c' =
                { c' with out := c'.out ++ (u.links c'.out.size (some c.out.size)).toArray } := by
            intro u hu id c' hsub hfar
            have hsize := Tree.size_le_sizes hu
            exact ih u hu hsub (by omega) _ c' hfar
          rw [copyInto_node h levels parent c hroot,
            foldl_copyChild hcopy (id + 1) (fun e he => Tree.subtree?_of_mem_numberFrom h he)
              ⟨c.out.push ⟨d, parent, []⟩, c.waiting⟩ (by simp) hbelow, withChildren_push]

/-- Children away from the target are copied one after another, down to all levels. -/
theorem foldl_away {levels : Nat} {cs : List Tree} (hlevels : sizes cs ≤ levels) (id : Nat)
    (hcs : ∀ e ∈ Tree.numberFrom id cs, t.subtree? e.1 = some e.2) (c : Copy)
    (hq : q < c.out.size) (haway : Away target id (sizes cs) c.waiting) :
    (numbersFrom id cs).foldl (copyChild t.arena.flat put target levels q) c =
      { c with out := withChildren c.out q cs } := by
  refine foldl_copyChild (fun u hu id' c' hsub hfar => ?_) id hcs c hq haway
  exact copyInto_away hsub (Nat.le_trans (Tree.size_le_sizes hu) hlevels) _ c' hfar

/-- **A copy through the target** puts out the links of the subtree with the graft's tree in it,
and uses the graft up. -/
theorem copyInto_through {s old : Tree} {id levels : Nat} {g : Outline}
    (hold : t.subtree? target = some old)
    (hput : ∀ parent out, put parent old.span out g = out ++ (new.links out.size parent).toArray)
    (h : t.subtree? id = some s) (hlevels : s.size ≤ levels) (hle : id ≤ target)
    (hlt : target < id + s.size) (parent : Option Nat) (out : FlatTree) :
    copyInto t.arena.flat put target levels id parent ⟨out, some g⟩ =
      ⟨out ++ ((Tree.replaceAt new (target - id) s).links out.size parent).toArray, none⟩ := by
  induction hk : target - id using Nat.strongRecOn generalizing s id levels parent out with
  | ind k ih =>
      obtain ⟨d, cs⟩ := s
      rw [Tree.size_node] at hlevels hlt
      obtain ⟨levels, rfl⟩ : ∃ n, levels = n + 1 := ⟨levels - 1, by omega⟩
      cases k with
      | zero =>
          obtain rfl : id = target := by omega
          obtain rfl : Tree.node d cs = old := Option.some.inj (h.symm.trans hold)
          obtain ⟨p, hlinks⟩ := Tree.exists_links h
          rw [copyInto, hlinks]
          dsimp only
          rw [if_pos rfl, Tree.replaceAt_zero]
          dsimp only
          rw [← hput]
          rfl
      | succ k =>
          obtain ⟨ls, u, rs, j, rfl, rfl, hj⟩ :=
            Tree.exists_middle (n := k) (by omega : k < sizes cs)
          rw [Tree.sizes_append, sizes] at hlevels
          have hsub : t.subtree? (id + 1 + sizes ls) = some u := Tree.subtree?_child h rfl
          have hchildren : ∀ e ∈ Tree.numberFrom (id + 1) (ls ++ u :: rs),
              t.subtree? e.1 = some e.2 := fun e he => Tree.subtree?_of_mem_numberFrom h he
          rw [Tree.numberFrom_append, List.forall_mem_append, Tree.numberFrom_cons,
            List.forall_mem_cons] at hchildren
          obtain ⟨hleft, -, hright⟩ := hchildren
          have hbefore : Away target (id + 1) (sizes ls) (some g) := .inr (.inr (by omega))
          rw [copyInto_node h levels parent _ (fun hid => by omega), Tree.numbersFrom_append,
            Tree.numbersFrom_cons, List.foldl_append, List.foldl_cons,
            foldl_away (by omega) (id + 1) hleft ⟨_, some g⟩ (by simp) hbefore, copyChild,
            ih j (by omega) hsub (by omega) (by omega) (by omega) _ _ (by omega)]
          dsimp only
          have hstart : out.size < (out.push ⟨d, parent, []⟩).size := by simp
          have hleftOut :
              out.size < (withChildren (out.push ⟨d, parent, []⟩) out.size ls).size := by
            rw [size_withChildren]
            omega
          have hchildOut : out.size < (withChildren (withChildren (out.push ⟨d, parent, []⟩)
              out.size ls) out.size [Tree.replaceAt new j u]).size := by
            rw [size_withChildren]
            omega
          rw [withChildren_one hleftOut, foldl_away (by omega) _ hright]
          · dsimp only
            rw [withChildren_append hleftOut, withChildren_append hstart, withChildren_push,
              Tree.replaceAt_succ, Tree.replaceAmong_middle _ ls rs hj, List.singleton_append]
          · exact hchildOut
          · exact .inl rfl

end

/-! ## Grafts -/

/-- **A copy of a subtree** appends the links of its nodes. -/
theorem copySubtree_eq {t s : Tree} {id : Nat} (h : t.subtree? id = some s) (parent : Option Nat)
    (out : FlatTree) :
    copySubtree t.arena.flat id parent out = out ++ (s.links out.size parent).toArray := by
  have hlevels : s.size ≤ t.arena.flat.size := by
    have hle := Tree.add_size_le id t s h
    rw [Arena.flat, Array.size_map, Arena.size_arena]
    omega
  rw [copySubtree, copyInto_away h hlevels parent _ (.inl rfl)]

variable {d : Document}

mutual

/-- The extent of an outline is that of the graft it stands for. -/
theorem extent?_eq : ∀ {g : Outline} {graft : Graft}, g.graft? d = some graft →
    extent? d.arena.flat g = graft.extent?
  | .kept id, graft, h => by
    rw [Outline.graft?, Option.map_eq_some_iff] at h
    obtain ⟨t, ht, rfl⟩ := h
    obtain ⟨p, hlinks⟩ := Tree.exists_links (t := d.tree) ht
    rw [extent?, Document.arena, hlinks, Graft.extent?]
    rfl
  | .fresh kind (some span) token trailing children, graft, h => by
    rw [Outline.graft?, Option.map_eq_some_iff] at h
    obtain ⟨grafts, -, rfl⟩ := h
    rw [extent?, Graft.extent?]
  | .fresh kind none token trailing children, graft, h => by
    rw [Outline.graft?, Option.map_eq_some_iff] at h
    obtain ⟨grafts, hgrafts, rfl⟩ := h
    rw [extent?, Graft.extent?, extentOf?_eq hgrafts]

/-- The extent of outlines in a row is that of the grafts. -/
theorem extentOf?_eq : ∀ {gs : List Outline} {grafts : List Graft},
    Outline.grafts? d gs = some grafts → extentOf? d.arena.flat gs = Graft.extentOf? grafts
  | [], grafts, h => by
    rw [Outline.grafts?, Option.some.injEq] at h
    subst h
    rw [extentOf?, Graft.extentOf?]
  | g :: gs, grafts, h => by
    obtain ⟨graft, rest, hgraft, hrest, rfl⟩ := Outline.grafts?_cons h
    rw [extentOf?, extent?_eq hgraft, extentOf?_eq hrest]
    rfl

end

mutual

/-- **A graft is put out as its tree.** -/
theorem emit_eq : ∀ {g : Outline} {graft : Graft}, g.graft? d = some graft →
    ∀ (parent : Option Nat) (anchor : Span) (out : FlatTree),
      emit d.arena.flat parent anchor out g =
        out ++ ((graft.toTree anchor).links out.size parent).toArray
  | .kept id, graft, h, parent, anchor, out => by
    rw [Outline.graft?, Option.map_eq_some_iff] at h
    obtain ⟨t, ht, rfl⟩ := h
    rw [emit, Document.arena, copySubtree_eq ht, Graft.toTree]
  | .fresh kind span token trailing children, graft, h, parent, anchor, out => by
    rw [Outline.graft?, Option.map_eq_some_iff] at h
    obtain ⟨grafts, hgrafts, rfl⟩ := h
    rw [emit, Graft.toTree]
    rw [extentOf?_eq hgrafts, emitAll_eq hgrafts _ _ _ (by simp), withChildren_push]

/-- **Putting out outlines** appends the trees of the grafts, as children of a node. -/
theorem emitAll_eq : ∀ {gs : List Outline} {grafts : List Graft},
    Outline.grafts? d gs = some grafts →
    ∀ (parent : Nat) (anchor : Span) (out : FlatTree), parent < out.size →
      emitAll d.arena.flat parent anchor out gs =
        withChildren out parent (Graft.toTrees anchor grafts)
  | [], grafts, h, parent, anchor, out, _ => by
    rw [Outline.grafts?, Option.some.injEq] at h
    subst h
    rw [emitAll, Graft.toTrees, withChildren_nil]
  | g :: gs, grafts, h, parent, anchor, out, hparent => by
    obtain ⟨graft, rest, hgraft, hrest, rfl⟩ := Outline.grafts?_cons h
    rw [emitAll, emit_eq hgraft, withChildren_one hparent, emitAll_eq hrest,
      withChildren_append hparent, Graft.toTrees, List.singleton_append]
    rw [size_withChildren]
    omega

end

/-- **An edit of the flat view** puts out the flat view of the edited document. -/
theorem regraft_eq {g : Outline} {graft : Graft} (hg : g.graft? d = some graft) (target : Nat) :
    d.arena.flat.regraft target g = (d.replace target graft).arena.flat := by
  have hroot : d.tree.subtree? 0 = some d.tree := Tree.getElem?_subtrees_zero d.tree
  have hlevels : d.tree.size ≤ d.tree.arena.flat.size := by
    rw [Arena.flat, Array.size_map, Arena.size_arena]
  rw [regraft, Document.replace]
  cases hold : d.subtree? target with
  | none =>
      have hfar : Away target 0 d.tree.size (some g) := by
        right; right
        rw [Nat.zero_add, ← Tree.length_subtrees]
        exact List.getElem?_eq_none_iff.mp hold
      rw [Document.arena, copyInto_away hroot hlevels none ⟨#[], some g⟩ hfar, Tree.flat_arena]
      simp
  | some old =>
      have hlt : target < 0 + d.tree.size := by
        have hle := Tree.add_size_le target d.tree old hold
        have hpos := Steps.size_pos old
        omega
      have hput : ∀ parent out, emit d.tree.arena.flat parent old.span out g =
          out ++ ((graft.toTree old.span).links out.size parent).toArray := fun parent out =>
        emit_eq hg parent old.span out
      rw [Document.arena, copyInto_through hold hput hroot hlevels (Nat.zero_le _) hlt]
      dsimp only
      rw [Document.arena, Document.put, Tree.flat_arena]
      simp

end FlatTree

/-! ## Edits -/

mutual

/-- The tree of a graft in a place with the extent `anchor`: kept parts are the subtrees that stand
at their numbers, and new nodes have the kind, token and comment that the graft gives them. -/
inductive Outline.Grows (d : Document) : Span → Outline → Tree → Prop
  | kept {anchor : Span} {id : Nat} {t : Tree} (h : d.subtree? id = some t) :
      Grows d anchor (.kept id) t
  | fresh {anchor extent : Span} {kind : Kind} {span token : Option Span}
      {trailing : Option String} {children : List Outline} {ts : List Tree}
      (hextent : extent = (span <|> d.arena.flat.extentOf? children).getD anchor)
      (hchildren : GrowAll d extent children ts) :
      Grows d anchor (.fresh kind span token trailing children)
        (.node ⟨kind, extent, token, span.isNone, trailing⟩ ts)

/-- The trees of the grafts of a list, in order. -/
inductive Outline.GrowAll (d : Document) : Span → List Outline → List Tree → Prop
  | nil {anchor : Span} : GrowAll d anchor [] []
  | cons {anchor : Span} {g : Outline} {gs : List Outline} {t : Tree} {ts : List Tree}
      (hfirst : Grows d anchor g t) (hrest : GrowAll d anchor gs ts) :
      GrowAll d anchor (g :: gs) (t :: ts)

end

namespace Outline

variable {d : Document}

mutual

/-- An outline grows to the tree of the graft it stands for. -/
theorem grows : ∀ {g : Outline} {graft : Graft}, g.graft? d = some graft →
    ∀ anchor, Grows d anchor g (graft.toTree anchor)
  | .kept id, graft, h, anchor => by
    rw [graft?, Option.map_eq_some_iff] at h
    obtain ⟨t, ht, rfl⟩ := h
    rw [Graft.toTree]
    exact .kept ht
  | .fresh kind span token trailing children, graft, h, anchor => by
    rw [graft?, Option.map_eq_some_iff] at h
    obtain ⟨grafts, hgrafts, rfl⟩ := h
    rw [Graft.toTree]
    exact .fresh (by rw [FlatTree.extentOf?_eq hgrafts]) (grows_all hgrafts _)

/-- Outlines in a row grow to the trees of the grafts. -/
theorem grows_all : ∀ {gs : List Outline} {grafts : List Graft}, grafts? d gs = some grafts →
    ∀ anchor, GrowAll d anchor gs (Graft.toTrees anchor grafts)
  | [], grafts, h, anchor => by
    rw [grafts?, Option.some.injEq] at h
    subst h
    rw [Graft.toTrees]
    exact .nil
  | g :: gs, grafts, h, anchor => by
    obtain ⟨graft, rest, hgraft, hrest, rfl⟩ := grafts?_cons h
    rw [Graft.toTrees]
    exact .cons (grows hgraft anchor) (grows_all hrest anchor)

end

end Outline

namespace Document

/-- A document in which one subtree stands where another stood. -/
structure Substituted (d e : Document) (target : Nat) (old new : Tree) : Prop where
  /-- The source is the same. -/
  source : e.source = d.source
  /-- The trees have one frame around the subtrees. -/
  frame : ∃ f : Tree.Frame, f.number = target ∧ f.fill old = d.tree ∧ f.fill new = e.tree
  /-- The nodes before the subtree keep their numbers. -/
  before : ∀ n, n < target → (e.subtree? n).map Tree.root = (d.subtree? n).map Tree.root
  /-- The nodes of the subtree are those of the new one. -/
  within : ∀ k, k < new.size → e.subtree? (target + k) = new.subtree? k
  /-- The nodes behind the subtree move by the difference of the sizes. -/
  behind : ∀ k, e.subtree? (target + new.size + k) = d.subtree? (target + old.size + k)

/-- Putting a tree in the place of another substitutes it. -/
theorem substituted_put {d : Document} {target : Nat} {old : Tree}
    (h : d.subtree? target = some old) (new : Tree) :
    d.Substituted (d.put target new) target old new := by
  obtain ⟨f, hnumber, hold, hfill⟩ := Tree.exists_frame h
  obtain ⟨roots, behind, hlength, hsubtrees⟩ := f.subtrees_fill
  obtain ⟨first, hfirst, hroots⟩ := hsubtrees old
  obtain ⟨first', hfirst', hroots'⟩ := hsubtrees new
  rw [hold] at hfirst
  rw [← hfill] at hfirst'
  have hbefore : first.length = target := by rw [← hnumber, ← hlength, ← hroots, List.length_map]
  have hbefore' : first'.length = target := by
    rw [← hnumber, ← hlength, ← hroots', List.length_map]
  refine ⟨rfl, ⟨f, hnumber, hold, (hfill new).symm⟩, fun n hn => ?_, fun k hk => ?_, fun k => ?_⟩
  · rw [subtree?, put, Tree.subtree?, hfirst', List.getElem?_append_left (hbefore' ▸ hn),
      ← List.getElem?_map, hroots', subtree?, Tree.subtree?, hfirst,
      List.getElem?_append_left (hbefore ▸ hn), ← List.getElem?_map, hroots]
  · rw [subtree?, put, Tree.subtree?, hfirst', List.getElem?_append_right (by omega), hbefore',
      Nat.add_sub_cancel_left, List.getElem?_append_left (by rwa [Tree.length_subtrees]),
      Tree.subtree?]
  · have hskip : ∀ (u : Tree) (front : List Tree), front.length = target →
        (front ++ (u.subtrees ++ behind))[target + u.size + k]? = behind[k]? := by
      intro u front hfront
      rw [List.getElem?_append_right (by omega), hfront, Nat.add_assoc, Nat.add_sub_cancel_left,
        List.getElem?_append_right (by rw [Tree.length_subtrees]; omega), Tree.length_subtrees,
        Nat.add_sub_cancel_left]
    rw [subtree?, put, Tree.subtree?, hfirst', hskip _ _ hbefore', subtree?, Tree.subtree?, hfirst,
      hskip _ _ hbefore]

/-- **An edit is a substitution.**  Whatever nodes a graft names, the target and the nodes around it
included, and however often, the edited document has the tree of the graft in the frame of the
target; a target that is not there leaves the document as it is.  The edit of the flat view, node by
node, puts out the flat view of that document. -/
theorem replace_substitutes {d : Document} {g : Outline} {graft : Graft}
    (hg : g.graft? d = some graft) (target : Nat) :
    d.arena.flat.regraft target g = (d.replace target graft).arena.flat ∧
    (d.subtree? target = none → d.replace target graft = d) ∧
    ∀ old, d.subtree? target = some old → ∃ new, Outline.Grows d old.span g new ∧
      d.Substituted (d.replace target graft) target old new := by
  refine ⟨FlatTree.regraft_eq hg target, fun hnone => ?_, fun old hold => ?_⟩
  · rw [replace, hnone]
  · refine ⟨graft.toTree old.span, Outline.grows hg old.span, ?_⟩
    rw [replace, hold]
    exact substituted_put hold _

/-- A sum makes way for a graft that has it and, twice, the assignment around it. -/
theorem replace_substitutes_nested : ∃ d graft old,
    parse "class A \x7b int F(int a) \x7b a = a + 1; return a; \x7d \x7d".toList = .ok d ∧
    Outline.graft? d (.fresh .block none none (some "new")
      [.kept 6, .fresh .parenthesized none none none [.kept 8], .kept 6]) = some graft ∧
    d.subtree? 8 = some old ∧
    d.arena.flat.regraft 8 (.fresh .block none none (some "new")
      [.kept 6, .fresh .parenthesized none none none [.kept 8], .kept 6]) =
        (d.replace 8 graft).arena.flat ∧
    ∃ new, d.Substituted (d.replace 8 graft) 8 old new := by
  have hread : (parse
      "class A \x7b int F(int a) \x7b a = a + 1; return a; \x7d \x7d".toList).toOption.any
        (fun d => (d.subtree? 8).isSome && (Outline.graft? d (.fresh .block none none (some "new")
          [.kept 6, .fresh .parenthesized none none none [.kept 8], .kept 6])).isSome) = true := by
    decide +kernel
  obtain ⟨d, hd, hread⟩ := exists_document_of_any hread
  rw [Bool.and_eq_true] at hread
  obtain ⟨old, hold⟩ := Option.isSome_iff_exists.mp hread.1
  obtain ⟨graft, hgraft⟩ := Option.isSome_iff_exists.mp hread.2
  obtain ⟨hflat, -, hthere⟩ := replace_substitutes hgraft 8
  obtain ⟨new, -, hnew⟩ := hthere old hold
  exact ⟨d, graft, old, hd, hgraft, hold, hflat, new, hnew⟩

end Document

end SharpMutants
