import SharpMutants.Proofs.Mutation.Scopes

/-!
# No mutant is lost or repeated

A rewrite gives its node another kind, so a mutant has the shape of the document up to its
target and parts from it there (`MutationPlan.partsAt_mutatedShape`): mutants of different
nodes are different.  The rewrites of one node differ in the first kind that is not that of
parentheses (`Mutator.nodup_leadingKinds`).  So the proposals for a document give it pairwise
different shapes, which are not its own, and none is left out (`MutationPlan.fresh_eq_self`).
One mutator at most applies to a node, hence their order does not matter:
`mutants_exact`.
-/

namespace SharpMutants

/-! ## The kind that a rewrite gives -/

/-- The first kind in a shape that is not that of parentheses. -/
def leadingKind? (shape : List (Kind × Nat)) : Option Kind :=
  (shape.find? fun e => e.1 != .parenthesized).map Prod.fst

/-- The leading kind of a node is its own, unless it is parentheses. -/
theorem leadingKind?_node {e : Node} (cs : List Tree) (h : e.kind ≠ .parenthesized) :
    leadingKind? (Tree.node e cs).shape = some e.kind := by
  rw [leadingKind?, Tree.shape_node, List.find?_cons_of_pos (by simpa using h)]
  rfl

/-- The leading kind of parentheses is that of what they hold. -/
theorem leadingKind?_parenthesized {e : Node} (t : Tree) (h : e.kind = .parenthesized) :
    leadingKind? (Tree.node e [t]).shape = leadingKind? t.shape := by
  rw [leadingKind?, Tree.shape_node, List.find?_cons_of_neg (by simpa using h), Tree.shapeOf_cons,
    Tree.shapeOf_nil, List.append_nil]
  rfl

namespace Rewrite

/-- The tree that a rewrite of a node makes, with a comment or without. -/
def newTree (r : Rewrite) (marker : Option String) (t : Tree) : Tree :=
  (r.graft.withTrailing marker).toTree t.span

variable {t : Tree} {marker : Option String}

/-- A binary expression with another operator, in new parentheses or not. -/
theorem exists_withOperator (t : Tree) (place : Option Place) (op : BinaryOp)
    (marker : Option String) (anchor : Span) : ∃ e cs, e.kind = .binary op ∧
      (((withOperator t place op).withTrailing marker).toTree anchor = .node e cs ∨
        ∃ e', e'.kind = .parenthesized ∧ ((withOperator t place op).withTrailing marker).toTree
          anchor = .node e' [.node e cs]) := by
  unfold withOperator
  dsimp only
  split
  · exact ⟨_, _, rfl, .inr ⟨_, rfl, rfl⟩⟩
  · exact ⟨_, _, rfl, .inl rfl⟩

/-- The leading kind of a graft with a new operator is the operator. -/
theorem leadingKind?_withOperator (place : Option Place) (op : BinaryOp) (anchor : Span) :
    leadingKind? (((withOperator t place op).withTrailing marker).toTree anchor).shape =
      some (.binary op) := by
  obtain ⟨e, cs, hkind, htree⟩ := exists_withOperator t place op marker anchor
  have hnode := leadingKind?_node (e := e) cs (by simp [hkind])
  rcases htree with htree | ⟨e', hkind', htree⟩
  · rw [htree, hnode, hkind]
  · rw [htree, leadingKind?_parenthesized _ hkind', hnode, hkind]

/-- The leading kind of a graft with a new token is that of the token. -/
theorem leadingKind?_retoken {kind : Kind} (h : kind ≠ .parenthesized) :
    leadingKind? (((Graft.retoken t kind).withTrailing marker).toTree t.span).shape =
      some kind := by
  rw [toTree_retoken, leadingKind?_node _ h]

/-- **A rewrite** gives its node another kind. -/
theorem OfNode.kind_newTree_ne {place : Option Place} {known : String → Prop} {m : Mutator}
    {r : Rewrite} (h : OfNode place known t m r) (marker : Option String) :
    (r.newTree marker t).kind ≠ t.kind := by
  unfold newTree
  cases h with
  | @binary old new hkind _ hne =>
      obtain ⟨e, cs, hnew, htree⟩ := exists_withOperator t place new marker t.span
      rw [hkind]
      rcases htree with htree | ⟨e', hnew', htree⟩
      · rw [htree]
        intro heq
        exact hne (Kind.binary.inj (hnew.symm.trans heq))
      · rw [htree]
        intro heq
        cases hnew'.symm.trans heq
  | postfixStep hkind hflip =>
      rw [ofUnary, toTree_retoken, hkind]
      intro heq
      exact (UnaryOp.flipped?_eq_some hflip).2 (Kind.postfixUnary.inj heq)
  | prefixOperator hkind _ hne =>
      rw [ofUnary, toTree_retoken, hkind]
      intro heq
      exact hne (Kind.prefixUnary.inj heq)
  | deletion hdeletable =>
      rw [toTree_deletion]
      intro heq
      rw [← heq] at hdeletable
      cases hdeletable
  | identifier hkind _ hne =>
      rw [toTree_retoken, hkind]
      intro heq
      exact hne (Kind.identifier.inj heq)

end Rewrite

/-- **The rewrites of a node** differ in the kind that leads. -/
theorem Mutator.nodup_leadingKinds {m : Mutator} {a : Arena} {flow : Option MethodFlow} {id : Nat}
    {t : Tree} {rs : List Rewrite} (h : m.rewrites a flow id t = .ok rs) (marker : Option String) :
    (rs.map fun r => leadingKind? (r.newTree marker t).shape).Nodup := by
  unfold rewrites at h
  split at h
  · rename_i old _
    cases h
    rw [binaryRewrites, List.map_map]
    have hkinds : ((fun r : Rewrite => leadingKind? (r.newTree marker t).shape) ∘
        fun new : BinaryOp => ⟨Rewrite.withOperator t (Rewrite.place? a id) new,
          Rewrite.swapSummary old.symbol new.symbol⟩) = fun new => some (.binary new) := by
      funext new
      exact Rewrite.leadingKind?_withOperator _ new t.span
    rw [hkinds]
    apply List.Nodup.map
    · intro new new' heq
      exact Kind.binary.inj (Option.some.inj heq)
    · have hnodup : BinaryOp.interchangeable.Nodup := by decide
      exact hnodup.filter _
  · split at h
    · cases h
      exact List.nodup_singleton _
    · cases h
  · split at h
    · cases h
      exact List.nodup_singleton _
    · rename_i old _ _ _
      cases h
      have hkind : ∀ new : UnaryOp, leadingKind?
          ((Rewrite.ofUnary t .prefixUnary old new).newTree marker t).shape =
            some (.prefixUnary new) := by
        intro new
        exact Rewrite.leadingKind?_retoken (by simp)
      simp [hkind]
  · split at h
    · cases h
      exact List.nodup_singleton _
    · cases h
  · rename_i old _
    split at h
    · rw [identifierRewrites] at h
      split at h
      · cases h
      · rename_i facts _
        cases h
        rw [List.map_map]
        have hkinds : ((fun r : Rewrite => leadingKind? (r.newTree marker t).shape) ∘
            fun new : String => ⟨.retoken t (.identifier new), Rewrite.swapSummary old new⟩) =
              fun new => some (.identifier new) := by
          funext new
          exact Rewrite.leadingKind?_retoken (by simp)
        rw [hkinds]
        apply List.Nodup.map
        · intro new new' heq
          exact Kind.identifier.inj (Option.some.inj heq)
        · exact (FactSet.nodup facts.names).filter _
    · cases h
  · cases h

/-! ## The shape of a mutant -/

/-- A number of a node is that of a subtree. -/
theorem Tree.exists_subtree? {t : Tree} {id : Nat} (h : id ∈ List.range t.size) :
    ∃ u, t.subtree? id = some u := by
  rw [List.mem_range, ← length_subtrees] at h
  exact ⟨t.subtrees[id], List.getElem?_eq_getElem h⟩

/-- A list parts from another at a place: up to there they agree, and there they differ. -/
structure PartsAt {α : Type} (original list : List α) (n : Nat) : Prop where
  before : list.take n = original.take n
  differs : list[n]? ≠ original[n]?

namespace PartsAt

variable {α : Type} {original list : List α} {n m : Nat}

/-- A list that parts from another is another list. -/
theorem ne (h : PartsAt original list n) : list ≠ original := by
  intro heq
  exact h.differs (by rw [heq])

/-- A list that parts from another at a place does not do so at a later one. -/
theorem not_lt (h : PartsAt original list n) (h' : PartsAt original list m) : ¬n < m := by
  intro hlt
  have hsame := congrArg (fun l => l[n]?) h'.before
  rw [List.getElem?_take_of_lt hlt, List.getElem?_take_of_lt hlt] at hsame
  exact h.differs hsame

/-- A list parts from another at one place. -/
theorem eq (h : PartsAt original list n) (h' : PartsAt original list m) : n = m :=
  Nat.le_antisymm (Nat.le_of_not_lt (h'.not_lt h)) (Nat.le_of_not_lt (h.not_lt h'))

end PartsAt

namespace MutationPlan

variable {p : MutationPlan} {a : Arena} {d : Document} {t : Tree} {r r' : Proposal}
  {original : List (Kind × Nat)} {rs : List Proposal}

/-- The shape that a proposal gives a document of a given shape. -/
def mutatedShape (p : MutationPlan) (original : List (Kind × Nat)) (r : Proposal) :
    List (Kind × Nat) :=
  original.take r.target ++ ((p.newTree r).shape ++ original.drop (r.target + r.old.size))

/-- The shape of a mutant is the mutated shape. -/
theorem shape_mutantOf (h : d.subtree? r.target = some r.old) :
    (p.mutantOf d a r).document.tree.shape = p.mutatedShape d.tree.shape r :=
  Tree.shape_replaceAt (p.newTree r) r.target d.tree r.old h

/-- **A mutant parts from the document** at its target. -/
theorem partsAt_mutatedShape (hold : t.subtree? r.target = some r.old)
    (hkind : (p.newTree r).kind ≠ r.old.kind) :
    PartsAt t.shape (p.mutatedShape t.shape r) r.target := by
  have hlt : r.target < t.shape.length := by
    have := Tree.add_size_le r.target t r.old hold
    have := Steps.size_pos r.old
    rw [Tree.length_shape]
    omega
  have hlength : (t.shape.take r.target).length = r.target :=
    List.length_take_of_le (Nat.le_of_lt hlt)
  constructor
  · rw [mutatedShape, List.take_append_of_le_length (by omega), List.take_of_length_le (by omega)]
  · have hhere : t.shape[r.target]? = some (r.old.kind, r.old.children.length) := by
      rw [Tree.shape_eq_map, List.getElem?_map]
      exact congrArg (Option.map _) hold
    rw [mutatedShape, List.getElem?_append_right (by omega), hlength, Nat.sub_self, hhere]
    cases hnew : p.newTree r with
    | node e cs =>
        rw [Tree.shape_node, List.cons_append, List.getElem?_cons_zero]
        intro heq
        apply hkind
        rw [hnew]
        exact (Prod.mk.inj (Option.some.inj heq)).1

/-! ## Nothing is left out -/

/-- The shapes that have been seen are some of a list of shapes. -/
def SeenAmong (original : List (Kind × Nat)) (seen : Shapes) (shapes : List (List (Kind × Nat))) :
    Prop :=
  ∀ n, ∀ rest ∈ (seen[n]?).getD [], original.take n ++ rest ∈ shapes

/-- At first the original shape has been seen. -/
theorem seenAmong_ofOriginal : SeenAmong original (.ofOriginal original) [original] := by
  intro n rest hrest
  rw [Shapes.ofOriginal, Std.TreeMap.getElem?_insert] at hrest
  split at hrest
  · rename_i heq
    obtain rfl := Std.LawfulEqCmp.eq_of_compare heq
    obtain rfl := List.mem_singleton.mp hrest
    rw [List.take_length, List.append_nil]
    exact List.mem_singleton_self _
  · simp at hrest

/-- What a list has after its common start with another makes it up with that start. -/
theorem take_parting {α : Type} [BEq α] [LawfulBEq α] (as bs : List α) :
    bs.take (parting as bs).1 ++ (parting as bs).2 = as := by
  fun_induction parting as bs with
  | case1 a as b bs heq n rest hparting ih =>
      obtain rfl := eq_of_beq heq
      rw [hparting] at ih
      rw [List.take_succ_cons, List.cons_append, ih]
  | case2 a as b bs hne => rfl
  | case3 as bs hcases => rw [List.take_zero, List.nil_append]

/-- **A new shape** is added to those that have been seen. -/
theorem SeenAmong.exists_addShape? {seen : Shapes} {shapes : List (List (Kind × Nat))}
    (h : SeenAmong original seen shapes) (hnew : p.mutatedShape original r ∉ shapes) :
    ∃ seen', p.addShape? original seen r = some seen' ∧
      SeenAmong original seen' (p.mutatedShape original r :: shapes) := by
  unfold addShape?
  dsimp only
  have hparting := take_parting ((p.newTree r).shape ++ original.drop (r.target + r.old.size))
    (original.drop r.target)
  generalize parting ((p.newTree r).shape ++ original.drop (r.target + r.old.size))
    (original.drop r.target) = parts at hparting
  obtain ⟨start, rest⟩ := parts
  have hshape : original.take (r.target + start) ++ rest = p.mutatedShape original r := by
    rw [mutatedShape, ← hparting, List.take_add, List.append_assoc]
  have hfresh : rest ∉ (seen[r.target + start]?).getD [] := by
    intro hrest
    exact hnew (hshape ▸ h _ rest hrest)
  rw [if_neg hfresh]
  refine ⟨_, rfl, ?_⟩
  intro n rest' hrest'
  rw [Std.TreeMap.getElem?_insert] at hrest'
  split at hrest'
  · rename_i heq
    obtain rfl := Std.LawfulEqCmp.eq_of_compare heq
    rcases List.mem_cons.mp hrest' with rfl | hrest'
    · rw [hshape]
      exact List.mem_cons_self
    · exact List.mem_cons_of_mem _ (h _ rest' hrest')
  · exact List.mem_cons_of_mem _ (h n rest' hrest')

/-- **Proposals of different shapes** are all fresh. -/
theorem fresh_eq_self {seen : Shapes} {shapes : List (List (Kind × Nat))}
    (hseen : SeenAmong original seen shapes) (hnew : ∀ r ∈ rs, p.mutatedShape original r ∉ shapes)
    (hdistinct : rs.Pairwise fun r r' => p.mutatedShape original r ≠ p.mutatedShape original r') :
    p.fresh original seen rs = rs := by
  induction rs generalizing seen shapes with
  | nil => rfl
  | cons r rs ih =>
      obtain ⟨hfirst, hrest⟩ := List.pairwise_cons.mp hdistinct
      obtain ⟨seen', hadd, hseen'⟩ := hseen.exists_addShape? (hnew r List.mem_cons_self)
      have hlater : ∀ r' ∈ rs,
          p.mutatedShape original r' ∉ p.mutatedShape original r :: shapes := by
        intro r' hr' hmem
        rcases List.mem_cons.mp hmem with heq | hmem
        · exact hfirst r' hr' heq.symm
        · exact hnew r' (List.mem_cons_of_mem _ hr') hmem
      rw [fresh, hadd]
      exact congrArg (r :: ·) (ih hseen' hlater hrest)

/-- The proposals for a node are the rewrites of the first mutator that applies, in its order. -/
theorem proposalsAt_eq_ok {flow : Option MethodFlow} {id : Nat}
    (h : p.proposalsAt a flow id t = .ok rs) :
    (Mutator.first? p.mutators flow id t.kind = none ∧ rs = []) ∨
      ∃ m made, Mutator.first? p.mutators flow id t.kind = some m ∧
        m.rewrites a flow id t = .ok made ∧ rs = made.map fun r => ⟨id, t, m, r⟩ := by
  unfold proposalsAt at h
  split at h
  · rename_i hfirst
    cases h
    exact .inl ⟨hfirst, rfl⟩
  · rename_i m hfirst
    cases hmade : m.rewrites a flow id t with
    | error e =>
        rw [hmade] at h
        cases h
    | ok made =>
        rw [hmade] at h
        cases h
        exact .inr ⟨m, made, hfirst, hmade, rfl⟩

/-- The proposals for one node give a document different shapes. -/
theorem pairwise_of_proposalsAt {flow : Option MethodFlow} {id : Nat}
    (h : p.proposalsAt a flow id t = .ok rs) :
    rs.Pairwise fun r r' => p.mutatedShape original r ≠ p.mutatedShape original r' := by
  rcases proposalsAt_eq_ok h with ⟨-, rfl⟩ | ⟨m, made, -, hmade, rfl⟩
  · exact .nil
  · have hnodup := List.pairwise_map.mp (Mutator.nodup_leadingKinds hmade p.marker)
    apply List.pairwise_map.mpr
    apply hnodup.imp
    intro r r' hne heq
    apply hne
    -- Both stand between the same parts of the shape of the document.
    have hnew := List.append_cancel_right (List.append_cancel_left heq)
    exact congrArg leadingKind? hnew

/-- A proposal for a node is for the subtree there, and gives the document a shape that parts from
its own at the node. -/
theorem partsAt_of_proposalsAt {flow : Option MethodFlow} {id : Nat} {u : Tree}
    (hu : t.subtree? id = some u) (h : p.proposalsAt t.arena flow id u = .ok rs) :
    ∀ r ∈ rs, t.subtree? r.target = some r.old ∧
      PartsAt t.shape (p.mutatedShape t.shape r) id := by
  intro r hr
  obtain ⟨rfl, rfl, made, hmade, hrewrite⟩ := of_mem_proposalsAt h r hr
  have hkind := (Mutator.ofNode_of_mem hmade hrewrite).kind_newTree_ne p.marker
  exact ⟨hu, partsAt_mutatedShape hu hkind⟩

section Made

variable {flowAt : Nat → Option MethodFlow} {made : Nat → List Proposal}
  (hmade : ∀ id u, t.subtree? id = some u → p.proposalsAt t.arena (flowAt id) id u = .ok (made id))

include hmade

/-- The mutated shapes of a node part from the original at the node. -/
theorem partsAt_of_mem_made {id : Nat} (hid : id ∈ List.range t.size) :
    ∀ r ∈ made id, t.subtree? r.target = some r.old ∧
      PartsAt t.shape (p.mutatedShape t.shape r) id := by
  obtain ⟨u, hu⟩ := Tree.exists_subtree? hid
  exact partsAt_of_proposalsAt hu (hmade id u hu)

/-- **The proposals for all nodes** give a document different shapes. -/
theorem pairwise_flatMap_made : ((List.range t.size).flatMap made).Pairwise fun r r' =>
    p.mutatedShape t.shape r ≠ p.mutatedShape t.shape r' := by
  apply List.pairwise_flatMap.mpr
  constructor
  · intro id hid
    obtain ⟨u, hu⟩ := Tree.exists_subtree? hid
    exact pairwise_of_proposalsAt (hmade id u hu)
  · apply List.pairwise_lt_range.imp_of_mem
    intro id id' hid hid' hlt r hr r' hr' heq
    have hplace := (partsAt_of_mem_made hmade hid r hr).2
    rw [heq] at hplace
    have hsame := hplace.eq (partsAt_of_mem_made hmade hid' r' hr').2
    omega

/-- No mutated shape is the original. -/
theorem mutatedShape_ne : ∀ r ∈ (List.range t.size).flatMap made,
    t.subtree? r.target = some r.old ∧ p.mutatedShape t.shape r ≠ t.shape := by
  intro r hr
  obtain ⟨id, hid, hr⟩ := List.mem_flatMap.mp hr
  exact (partsAt_of_mem_made hmade hid r hr).imp_right PartsAt.ne

/-- **Every proposal** makes a mutant. -/
theorem mutants_eq {d : Document} (ht : d.tree = t)
    (hproposals : p.proposalsFrom t.arena none t.numbered =
      .ok ((List.range t.size).flatMap made)) :
    p.mutants d = .ok (((List.range t.size).flatMap made).map (p.mutantOf d d.arena)) := by
  subst ht
  have hnew : ∀ r ∈ (List.range d.tree.size).flatMap made,
      p.mutatedShape d.tree.shape r ∉ [d.tree.shape] := by
    intro r hr
    rw [List.mem_singleton]
    exact (mutatedShape_ne hmade r hr).2
  have hfresh := fresh_eq_self seenAmong_ofOriginal hnew (pairwise_flatMap_made hmade)
  unfold mutants proposals
  dsimp only
  rw [Document.arena, hproposals]
  simp only [bind, Except.bind, hfresh]
  rfl

end Made

/-! ## The order of the mutators -/

/-- The first mutator of a list depends on the members of the list only. -/
theorem first?_congr {ms ms' : List Mutator} (h : ∀ m, m ∈ ms ↔ m ∈ ms') :
    Mutator.first? ms = Mutator.first? ms' := by
  funext flow id kind
  apply Option.ext
  intro m
  rw [Mutator.first?_eq_some_iff, Mutator.first?_eq_some_iff, h]

/-- The proposals at nodes depend on the members of the list of mutators only. -/
theorem proposalsFrom_congr {ms : List Mutator} (h : ∀ m, m ∈ ms ↔ m ∈ p.mutators)
    (nodes : List (Nat × Tree)) (scope : Option MethodScope) :
    ({ p with mutators := ms }).proposalsFrom a scope nodes = p.proposalsFrom a scope nodes := by
  induction nodes generalizing scope with
  | nil => rfl
  | cons node nodes ih =>
      obtain ⟨id, t⟩ := node
      unfold proposalsFrom proposalsAt
      simp only [first?_congr h, ih]
      rfl

/-- Which proposals are fresh does not depend on the mutators. -/
theorem fresh_congr (ms : List Mutator) (seen : Shapes) :
    ({ p with mutators := ms }).fresh original seen rs = p.fresh original seen rs := by
  induction rs generalizing seen with
  | nil => rfl
  | cons r rs ih =>
      unfold fresh
      simp only [ih]
      rfl

/-- **The order of the mutators** does not matter. -/
theorem mutants_congr {ms : List Mutator} (h : ∀ m, m ∈ ms ↔ m ∈ p.mutators) (d : Document) :
    ({ p with mutators := ms }).mutants d = p.mutants d := by
  unfold mutants proposals
  simp only [proposalsFrom_congr h, fresh_congr]
  rfl

end MutationPlan

/-- **No mutant is lost or repeated.**  Each node below a method has the data flow of that method,
any other node has none.  The mutants are those of the rewrites that the mutator makes which
applies to a node, one for each of them, in preorder of the nodes and then in the order of the
mutator.  They have pairwise different shapes, which are not that of the document, and they are the
same whatever the order of the mutators. -/
theorem mutants_exact {source : Text} {d : Document} (h : parse source = .ok d)
    (p : MutationPlan) :
    ∃ (flowAt : Nat → Option MethodFlow) (made : Nat → List Proposal) (ms : List Mutant),
      (∀ m ∈ d.tree.methods, ∃ flow, MethodFlow.analyze d.arena p.conditionUses m = .ok flow ∧
        ∀ id, d.tree.Below m id → flowAt id = some flow) ∧
      (∀ id, (∀ m ∈ d.tree.methods, ¬d.tree.Below m id) → flowAt id = none) ∧
      (∀ id t, d.subtree? id = some t →
        (∀ m ∈ p.mutators, m.applies (flowAt id) id t.kind = true →
          ∃ rs, m.rewrites d.arena (flowAt id) id t = .ok rs ∧
            made id = rs.map fun r => ⟨id, t, m, r⟩) ∧
        ((∀ m ∈ p.mutators, m.applies (flowAt id) id t.kind = false) → made id = [])) ∧
      ms = ((List.range d.tree.size).flatMap made).map (p.mutantOf d d.arena) ∧
      p.mutants d = .ok ms ∧
      (∀ m ∈ ms, m.document.sameShape d = false) ∧
      (ms.Pairwise fun m m' => m.document.sameShape m'.document = false) ∧
      ∀ mutators : List Mutator, (∀ m, m ∈ mutators ↔ m ∈ p.mutators) →
        ({ p with mutators := mutators }).mutants d = .ok ms := by
  obtain ⟨-, -, -, -, -, hgrammatical, -⟩ := conforms_of_parse h
  obtain ⟨flowAt, made, hinside, houtside, hmade, hproposals⟩ :=
    MutationPlan.exists_proposals hgrammatical p
  have hmutants := MutationPlan.mutants_eq hmade rfl hproposals
  have hshape : ∀ r ∈ (List.range d.tree.size).flatMap made,
      (p.mutantOf d d.arena r).document.tree.shape = p.mutatedShape d.tree.shape r := by
    intro r hr
    exact MutationPlan.shape_mutantOf (MutationPlan.mutatedShape_ne hmade r hr).1
  refine ⟨flowAt, made, _, hinside, houtside, ?_, rfl, hmutants, ?_, ?_, ?_⟩
  · intro id t ht
    rcases MutationPlan.proposalsAt_eq_ok (hmade id t ht) with
      ⟨hfirst, hnone⟩ | ⟨m, rs, hfirst, hrs, heq⟩
    · refine ⟨?_, fun _ => hnone⟩
      intro m hm happlies
      rw [Mutator.first?_eq_some_iff.mpr ⟨hm, happlies⟩] at hfirst
      cases hfirst
    · obtain ⟨hm, happlies⟩ := Mutator.first?_eq_some_iff.mp hfirst
      constructor
      · intro m' hm' happlies'
        obtain rfl := Mutator.eq_of_applies happlies happlies'
        exact ⟨rs, hrs, heq⟩
      · intro hnone
        rw [hnone m hm] at happlies
        cases happlies
  · intro m hm
    obtain ⟨r, hr, rfl⟩ := List.mem_map.mp hm
    rw [Document.sameShape, Tree.sameShape, hshape r hr]
    exact beq_false_of_ne (MutationPlan.mutatedShape_ne hmade r hr).2
  · apply List.pairwise_map.mpr
    apply (MutationPlan.pairwise_flatMap_made hmade).imp_of_mem
    intro r r' hr hr' hne
    rw [Document.sameShape, Tree.sameShape, hshape r hr, hshape r' hr']
    exact beq_false_of_ne hne
  · intro mutators hsame
    rw [MutationPlan.mutants_congr hsame, hmutants]

/-- A sum outside of the methods and a product in one, with two orders of the mutators. -/
theorem mutants_exact_fields : ∃ (d : Document) (flowAt : Nat → Option MethodFlow)
    (made : Nat → List Proposal) (ms : List Mutant) (flow : MethodFlow),
    parse "class A \x7b int b = c + 1; void M() \x7b int a = 0; a = a * 2; \x7d \x7d".toList = .ok d ∧
      MethodFlow.analyze d.arena false 8 = .ok flow ∧ flowAt 17 = some flow ∧ flowAt 5 = none ∧
      ms = ((List.range d.tree.size).flatMap made).map
        (MutationPlan.mutantOf ⟨[.statementDeletion, .binaryOperator], none, false⟩ d d.arena) ∧
      MutationPlan.mutants ⟨[.statementDeletion, .binaryOperator], none, false⟩ d = .ok ms ∧
      (ms.Pairwise fun m m' => m.document.sameShape m'.document = false) ∧
      MutationPlan.mutants
        ⟨[.binaryOperator, .statementDeletion, .binaryOperator], none, false⟩ d = .ok ms := by
  have hread : (parse
      "class A \x7b int b = c + 1; void M() \x7b int a = 0; a = a * 2; \x7d \x7d".toList).toOption.any
        (fun d => d.tree.methods == [8] && (d.subtree? 8).any fun s => 17 < 8 + s.size) = true := by
    decide +kernel
  obtain ⟨d, hd, htests⟩ := exists_document_of_any hread
  obtain ⟨hmethods, htests⟩ := Bool.and_eq_true_iff.mp htests
  have hmethods := eq_of_beq hmethods
  obtain ⟨s, hs, hstop⟩ := (Option.any_eq_true _ _).mp htests
  obtain ⟨flowAt, made, ms, hinside, houtside, -, hms, hmutants, -, hdistinct, horder⟩ :=
    mutants_exact hd ⟨[.statementDeletion, .binaryOperator], none, false⟩
  obtain ⟨flow, hflow, hbelow⟩ := hinside 8 (by rw [hmethods]; exact List.mem_singleton_self 8)
  refine ⟨d, flowAt, made, ms, flow, hd, hflow, ?_, ?_, hms, hmutants, hdistinct, ?_⟩
  · exact hbelow 17 ⟨s, hs, by omega, of_decide_eq_true hstop⟩
  · apply houtside 5
    intro m hm hfield
    rw [hmethods, List.mem_singleton] at hm
    obtain ⟨_, -, hle, -⟩ := hfield
    omega
  · apply horder [.binaryOperator, .statementDeletion, .binaryOperator]
    intro m
    cases m <;> decide

end SharpMutants
