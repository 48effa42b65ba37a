import Mathlib.Data.List.Perm.Subperm
import SharpMutants.Proofs.ControlFlow
import SharpMutants.Proofs.Dataflow.Search
import SharpMutants.Proofs.Soundness

/-!
# The graph of a method is its order of execution

`IsOrder g id t` says that a graph has the steps of a statement as its nodes and the
order of their execution as its edges.  It holds of the graph of every statement, and
the body of every method of a document is one: `methodGraph_isOrder`.
-/

namespace SharpMutants

namespace Steps

/-- A graph is the order of execution of the statement at a node. -/
structure IsOrder (g : FlowGraph) (id : Nat) (t : Tree) : Prop where
  /-- The nodes are the steps. -/
  nodes : ∀ n, n ∈ g.nodes ↔ n ∈ steps id t
  /-- The entry is the step that is executed first. -/
  entry : ∀ n, g.entry = some n ↔ Ahead [.run id t] n
  /-- There is no entry only if there are no steps. -/
  entry_none : g.entry = none ↔ steps id t = []
  /-- The successors are the steps that may be executed immediately after a step. -/
  successors : ∀ n m, m ∈ g.successors n ↔ RightAfter id t n m
  /-- They are so wherever the step is executed. -/
  everywhere : ∀ K n K₀, Located id t K → Move K (some n) K₀ →
    ∀ m, m ∈ g.successors n ↔ ∃ K', Move K (some n) K' ∧ Ahead K' m
  targets : ∀ n, ∀ m ∈ g.successors n, m ∈ g.nodes
  branching : ∀ n, (g.successors n).length ≤ 2

variable {i id : Nat} {s t : Tree} {K : List Work}

/-- The edges of a statement are those of the work that its execution comes to. -/
theorem Located.fits (h : Located id t K) (ht : Statement t) :
    Fits (statementEdits none id t) K := by
  induction h with
  | start => exact .run ht (fun _ _ _ _ => Iff.rfl) .nil
  | move _ hmove ih => exact ih.move hmove
  | skip _ ih =>
      cases ih with
      | run _ _ rest => exact rest

/-- Execution comes to every step of statements in a row, if it does in each of them. -/
theorem exists_locatedOf {cs : List Tree} (h : ∀ c ∈ cs, ∀ id K, Located i t (.run id c :: K) →
      ∀ n ∈ steps id c, ∃ K₁ K₂, Located i t K₁ ∧ Move K₁ (some n) K₂)
    (here : Located i t (Work.runs id cs ++ K)) :
    ∀ n ∈ stepsOf id cs, ∃ K₁ K₂, Located i t K₁ ∧ Move K₁ (some n) K₂ := by
  induction cs generalizing id with
  | nil =>
      rw [stepsOf_nil]
      nofun
  | cons c cs ih =>
      intro n hn
      rw [Work.runs, List.cons_append] at here
      rw [stepsOf_cons] at hn
      rcases List.mem_append.mp hn with hn | hn
      · exact h c List.mem_cons_self id _ here n hn
      · exact ih (fun c hc => h c (List.mem_cons_of_mem _ hc)) here.skip n hn

/-- **Every step is executed somewhere**, if statements may be passed over. -/
theorem Statement.exists_located (hs : Statement s) (here : Located i t (.run id s :: K)) :
    ∀ n ∈ steps id s, ∃ K₁ K₂, Located i t K₁ ∧ Move K₁ (some n) K₂ := by
  induction hs generalizing id K with
  | block hkind _ ih =>
      rw [steps_block hkind]
      exact exists_locatedOf (fun c hc id K => ih c hc) (here.move (.block hkind))
  | plain hkind hinert =>
      rw [steps_plain hkind hinert]
      exact List.forall_mem_singleton.mpr ⟨_, _, here, .plain hkind⟩
  | returns hkind hinert =>
      rw [steps_return hkind hinert]
      exact List.forall_mem_singleton.mpr ⟨_, _, here, .returns hkind⟩
  | ifThen hkind hcond _ ih =>
      rw [steps_ifThen hkind hcond]
      exact List.forall_mem_cons.mpr
        ⟨⟨_, _, here, .ifFalse hkind⟩, ih (here.move (.ifTrue hkind))⟩
  | ifElse hkind helse hcond _ _ ihBody ihOther =>
      rw [steps_ifElse hkind helse hcond]
      refine List.forall_mem_cons.mpr ⟨⟨_, _, here, .ifTrue hkind⟩, ?_⟩
      exact List.forall_mem_append.mpr
        ⟨ihBody (here.move (.ifTrue hkind)), ihOther (here.move (.ifElse hkind helse))⟩
  | whileLoop hkind hcond _ ih =>
      rw [steps_while hkind hcond]
      exact List.forall_mem_cons.mpr
        ⟨⟨_, _, here, .whileFalse hkind⟩, ih (here.move (.whileTrue hkind))⟩
  | forLoop hkind hinit hcond hincrement _ ih =>
      rw [steps_for hkind hinit hcond hincrement]
      have htest := here.move (.forStart hkind)
      have hbody := htest.move .forTrue
      refine List.forall_mem_append.mpr ⟨?_, ih hbody⟩
      simp only [List.forall_mem_cons]
      exact ⟨⟨_, _, here, .forStart hkind⟩, ⟨_, _, htest, .forFalse⟩,
        ⟨_, _, hbody.skip, .forNext⟩, nofun⟩

/-- A step has at most two outcomes. -/
theorem Proper.exists_outcomes (h : Proper K) (n : Nat) :
    ∃ K₁ K₂, ∀ K', Move K (some n) K' → K' = K₁ ∨ K' = K₂ := by
  cases K with
  | nil => exact ⟨[], [], nofun⟩
  | cons w K =>
      cases w with
      | run id t =>
          cases h _ List.mem_cons_self with
          | block hkind _ => exact ⟨_, [], fun K' hmove => .inl ((move_block hkind).mp hmove).2⟩
          | plain hkind _ => exact ⟨_, [], fun K' hmove => .inl ((move_plain hkind).mp hmove).2⟩
          | returns hkind _ => exact ⟨_, [], fun K' hmove => .inl ((move_return hkind).mp hmove).2⟩
          | ifThen hkind _ _ => exact ⟨_, _, fun K' hmove => ((move_ifThen hkind).mp hmove).2⟩
          | ifElse hkind helse _ _ _ =>
              exact ⟨_, _, fun K' hmove => ((move_ifElse hkind helse).mp hmove).2⟩
          | whileLoop hkind _ _ => exact ⟨_, _, fun K' hmove => ((move_while hkind).mp hmove).2⟩
          | forLoop hkind _ _ _ _ => exact ⟨_, [], fun K' hmove => .inl ((move_for hkind).mp hmove).2⟩
      | test l => exact ⟨_, _, fun K' hmove => (move_test.mp hmove).2⟩
      | next l => exact ⟨_, [], fun K' hmove => .inl (move_next.mp hmove).2⟩

section Graphs

variable {exit : Option Nat} {n m : Nat}

/-- The successors in the graph of a statement are the edges of the statement. -/
theorem mem_successors_graph :
    m ∈ (graph exit id t).successors n ↔ .edge n m ∈ statementEdits exit id t := by
  rw [graph, FlowGraph.mem_successors_build]
  simp

/-- The nodes of the graph of a statement are its steps. -/
theorem Statement.mem_nodes_graph (ht : Statement t) :
    n ∈ (graph none id t).nodes ↔ n ∈ steps id t := by
  rw [graph, FlowGraph.mem_nodes_build]
  constructor
  · rintro ⟨e, he, hn⟩
    rcases List.mem_cons.mp he with rfl | he
    · cases hn
    · have hwithin := ht.within none id e he
      cases e with
      | node k =>
          obtain rfl := List.mem_singleton.mp hn
          exact hwithin
      | edge source target =>
          obtain ⟨hsource, htarget | hnone⟩ := hwithin
          · rw [GraphEdit.ends, List.mem_cons, List.mem_singleton] at hn
            rcases hn with rfl | rfl
            · exact hsource
            · exact htarget
          · cases hnone
      | entry k => exact hwithin.elim
  · intro hn
    exact ⟨.node n, List.mem_cons_of_mem _ (ht.node_mem none id n hn), List.mem_singleton_self n⟩

/-- The entry of the graph of a statement is its first step. -/
theorem Statement.entry_graph (ht : Statement t) : (graph none id t).entry = firstStep? id t := by
  have hentry : ∀ n, .entry n ∉ statementEdits none id t := fun n he => ht.within none id _ he
  rw [graph, FlowGraph.build, List.foldl_cons, FlowGraph.entry_foldl hentry]
  rfl

/-- The graph of a statement is closed. -/
theorem Statement.closed_graph (ht : Statement t) : (graph none id t).Closed := by
  refine FlowGraph.closed_build fun {n} hn => ?_
  have hfirst : (steps id t).head? = some n := by
    rw [← ht.firstStep?_eq, ← ht.entry_graph]
    exact hn
  exact ht.mem_nodes_graph.mpr (List.mem_of_head? hfirst)

end Graphs

/-- **The graph of a statement** is its order of execution. -/
theorem Statement.isOrder (ht : Statement t) (id : Nat) : IsOrder (graph none id t) id t := by
  have heverywhere : ∀ K n K₀, Located id t K → Move K (some n) K₀ →
      ∀ m, m ∈ (graph none id t).successors n ↔ ∃ K', Move K (some n) K' ∧ Ahead K' m := by
    intro K n K₀ hK hmove m
    rw [mem_successors_graph, (hK.fits ht).edge_iff hmove]
    refine exists_congr fun K' => and_congr_right fun hmove' => ?_
    exact ((hK.move hmove').fits ht).proper.ahead_iff.symm
  have hnodes : ∀ n, n ∈ (graph none id t).nodes ↔ n ∈ steps id t := fun n => ht.mem_nodes_graph
  have hsource : ∀ n m, m ∈ (graph none id t).successors n → n ∈ steps id t := fun n m hm =>
    (ht.within none id _ (mem_successors_graph.mp hm)).1
  refine ⟨hnodes, ?_, ?_, ?_, heverywhere, ?_, ?_⟩
  · intro n
    rw [ht.entry_graph, (Located.start.fits ht).proper.ahead_iff, ahead?, ahead?, Option.or_none]
  · rw [ht.entry_graph, ht.firstStep?_eq, List.head?_eq_none_iff]
  · intro n m
    constructor
    · intro hm
      -- The step is executed somewhere, and there its successors are what can follow it.
      obtain ⟨K, K₀, hK, hmove⟩ := ht.exists_located .start n (hsource n m hm)
      obtain ⟨K', hmove', hahead⟩ := (heverywhere K n K₀ hK hmove m).mp hm
      exact ⟨K, K', hK, hmove', hahead⟩
    · rintro ⟨K, K', hK, hmove, hahead⟩
      exact (heverywhere K n K' hK hmove m).mpr ⟨K', hmove, hahead⟩
  · intro n m hm
    rw [hnodes]
    obtain ⟨-, hm | hnone⟩ := ht.within none id _ (mem_successors_graph.mp hm)
    · exact hm
    · cases hnone
  · intro n
    by_cases hn : n ∈ steps id t
    · obtain ⟨K, K₀, hK, hmove⟩ := ht.exists_located .start n hn
      obtain ⟨K₁, K₂, houtcomes⟩ := (hK.fits ht).proper.exists_outcomes n
      have hsubset : (graph none id t).successors n ⊆ (ahead? K₁).toList ++ (ahead? K₂).toList := by
        intro m hm
        obtain ⟨K', hmove', hahead⟩ := (heverywhere K n K₀ hK hmove m).mp hm
        have hm := hahead.ahead?_eq
        rcases houtcomes K' hmove' with rfl | rfl
        · exact List.mem_append_left _ (Option.mem_toList.mpr hm)
        · exact List.mem_append_right _ (Option.mem_toList.mpr hm)
      have hnodup := FlowGraph.nodup_successors_build (.entry (firstStep? id t) ::
        statementEdits none id t) n
      have hle := (List.subperm_of_subset hnodup hsubset).length_le
      have hone : ∀ o : Option Nat, o.toList.length ≤ 1 := by
        intro o
        cases o <;> simp
      have := hone (ahead? K₁)
      have := hone (ahead? K₂)
      rw [List.length_append] at hle
      exact hle.trans (by omega)
    · have hnil : (graph none id t).successors n = [] :=
        List.eq_nil_iff_forall_not_mem.mpr fun m hm => hn (hsource n m hm)
      simp [hnil]

/-! ## The bodies of methods -/

/-- What a conforming tree is to the execution. -/
def Executed : Symbol → Tree → Prop
  | .body, t | .statement _, t => Statement t
  | .elseClause _, t => ∃ e other, t = .node e [other] ∧ e.kind = .elseClause ∧ Statement other
  | .variableDeclaration, t | .variableDeclarator, t | .expression _, t => Inert t
  | _, _ => True

/-- A node without steps of its own has none if its children have none. -/
theorem inert_node {d : Node} {cs : List Tree} (hown : ∀ id, own id d.kind cs = [])
    (hcs : ∀ c ∈ cs, Inert c) : Inert (.node d cs) := by
  intro id
  rw [steps_node, hown, stepsOf_inert hcs, List.nil_append]

/-- The children that are declarations or expressions have no steps. -/
theorem inert_of_forall₂ {ss : List Symbol} {cs : List Tree}
    (h : List.Forall₂ (fun s c => Conforms s c ∧ Executed s c) ss cs)
    (hss : ∀ s ∈ ss, s = .variableDeclaration ∨ s = .variableDeclarator ∨ ∃ l, s = .expression l) :
    ∀ c ∈ cs, Inert c := by
  induction h with
  | nil => nofun
  | cons here _ ih =>
      obtain ⟨hs, hss⟩ := List.forall_mem_cons.mp hss
      refine List.forall_mem_cons.mpr ⟨?_, ih hss⟩
      rcases hs with rfl | rfl | ⟨l, rfl⟩ <;> exact here.2

end Steps

open Steps in
/-- **Conforming statements** are statements to the execution. -/
theorem Conforms.executed {s : Symbol} {t : Tree} (h : Conforms s t) : Executed s t := by
  refine h.inductionOn (motive := Executed) ?_
  intro s d ss cs rule _ children
  generalize hkind : d.kind = k at rule
  cases rule with
  | body n => exact .block hkind fun c hc => (forall_mem_of_replicate children c hc).2
  | block closed n => exact .block hkind fun c hc => (forall_mem_of_replicate children c hc).2
  | localDeclaration closed =>
      exact .plain (by rw [hkind]; rfl) (inert_of_forall₂ children (by simp))
  | expressionStatement closed =>
      exact .plain (by rw [hkind]; rfl) (inert_of_forall₂ children (by simp))
  | emptyStatement closed =>
      exact .plain (by rw [hkind]; rfl) (inert_of_forall₂ children (by simp))
  | returnNothing closed => exact .returns hkind (inert_of_forall₂ children (by simp))
  | returnValue closed => exact .returns hkind (inert_of_forall₂ children (by simp))
  | ifThen =>
      match cs, children with
      | [cond, body], .cons hcond (.cons hbody .nil) => exact .ifThen hkind hcond.2 hbody.2
  | ifElse closed =>
      match cs, children with
      | [cond, body, _], .cons hcond (.cons hbody (.cons hother .nil)) =>
        obtain ⟨e, other, rfl, helse, hother⟩ := hother.2
        exact .ifElse hkind helse hcond.2 hbody.2 hother
  | elseClause closed =>
      match cs, children with
      | [other], .cons hother .nil => exact ⟨d, other, rfl, hkind, hother.2⟩
  | whileStatement closed =>
      match cs, children with
      | [cond, body], .cons hcond (.cons hbody .nil) => exact .whileLoop hkind hcond.2 hbody.2
  | forDeclaration closed =>
      match cs, children with
      | [init, cond, step, body], .cons hinit (.cons hcond (.cons hstep (.cons hbody .nil))) =>
        exact .forLoop hkind hinit.2 hcond.2 hstep.2 hbody.2
  | forExpression closed =>
      match cs, children with
      | [init, cond, step, body], .cons hinit (.cons hcond (.cons hstep (.cons hbody .nil))) =>
        exact .forLoop hkind hinit.2 hcond.2 hstep.2 hbody.2
  | compilationUnit | usingDirective | namespaceDecl | classDecl | fieldDecl | methodDecl
  | parameter => trivial
  | _ =>
      refine inert_node (fun id => by rw [hkind]; rfl) (inert_of_forall₂ children ?_)
      simp

/-! ## Nodes by number -/

namespace Tree

mutual

/-- The nodes of a subtree come one after another. -/
theorem getElem?_subtrees_add : ∀ (n : Nat) (t s : Tree), t.subtrees[n]? = some s →
    ∀ k < s.size, t.subtrees[n + k]? = s.subtrees[k]?
  | 0, node d cs, s, h => by
    rw [subtrees_node, List.getElem?_cons_zero, Option.some.injEq] at h
    intro k _
    rw [← h, Nat.zero_add]
  | n + 1, node d cs, s, h => by
    rw [subtrees_node, List.getElem?_cons_succ] at h
    intro k hk
    rw [subtrees_node, Nat.add_right_comm, List.getElem?_cons_succ]
    exact getElem?_subtreesOf_add n cs s h k hk

/-- The subtrees of a tree in a row come together. -/
theorem getElem?_subtreesOf_add : ∀ (n : Nat) (cs : List Tree) (s : Tree),
    (subtreesOf cs)[n]? = some s → ∀ k < s.size, (subtreesOf cs)[n + k]? = s.subtrees[k]?
  | n, [], s, h => by simp [subtreesOf_nil] at h
  | n, c :: cs, s, h => by
    intro k hk
    rw [subtreesOf_cons] at h ⊢
    by_cases hn : n < c.size
    · rw [List.getElem?_append_left (by rwa [length_subtrees])] at h
      have := add_size_le n c s h
      rw [List.getElem?_append_left (by rw [length_subtrees]; omega)]
      exact getElem?_subtrees_add n c s h k hk
    · rw [List.getElem?_append_right (by rw [length_subtrees]; omega), length_subtrees] at h
      rw [List.getElem?_append_right (by rw [length_subtrees]; omega), length_subtrees,
        show n + k - c.size = n - c.size + k by omega]
      exact getElem?_subtreesOf_add (n - c.size) cs s h k hk

end

/-- The numbers that the trees of a list are given are those of their nodes. -/
theorem getElem?_of_mem_numberFrom {id n : Nat} {c : Tree} {cs : List Tree}
    (h : (n, c) ∈ numberFrom id cs) : id ≤ n ∧ (subtreesOf cs)[n - id]? = some c := by
  induction cs generalizing id with
  | nil =>
      rw [numberFrom_nil] at h
      cases h
  | cons b cs ih =>
      rw [numberFrom_cons, List.mem_cons] at h
      rw [subtreesOf_cons]
      rcases h with h | h
      · obtain ⟨rfl, rfl⟩ := Prod.mk.inj h
        refine ⟨Nat.le_refl n, ?_⟩
        rw [Nat.sub_self, List.getElem?_append_left (by rw [length_subtrees]; exact Steps.size_pos c)]
        cases c
        rw [subtrees_node, List.getElem?_cons_zero]
      · obtain ⟨hle, hget⟩ := ih h
        refine ⟨by omega, ?_⟩
        rw [List.getElem?_append_right (by rw [length_subtrees]; omega), length_subtrees,
          Nat.sub_sub, hget]

/-- The children of a node are the subtrees at their numbers. -/
theorem subtree?_of_mem_numberFrom {t s c : Tree} {m n : Nat} (hs : t.subtree? m = some s)
    (h : (n, c) ∈ numberFrom (m + 1) s.children) : t.subtree? n = some c := by
  obtain ⟨d, cs⟩ := s
  obtain ⟨hle, hget⟩ := getElem?_of_mem_numberFrom h
  have hchild : (node d cs).subtrees[n - m]? = some c := by
    rw [subtrees_node, show n - m = n - (m + 1) + 1 by omega, List.getElem?_cons_succ]
    exact hget
  have hlt : n - m < (node d cs).size := by
    rw [← length_subtrees]
    exact (List.getElem?_eq_some_iff.mp hchild).1
  rw [subtree?, ← hchild, ← getElem?_subtrees_add m t _ hs _ hlt,
    show m + (n - m) = n by omega]

/-- Numbering some trees keeps them. -/
theorem map_snd_numberFrom (id : Nat) (cs : List Tree) :
    (numberFrom id cs).map Prod.snd = cs := by
  induction cs generalizing id with
  | nil => rw [numberFrom_nil, List.map_nil]
  | cons c cs ih => rw [numberFrom_cons, List.map_cons, ih]

/-- The last of some numbered trees is the last tree. -/
theorem getLast?_numberFrom (id : Nat) (cs : List Tree) (u : Tree) :
    ∃ n, (numberFrom id (cs ++ [u])).getLast? = some (n, u) := by
  have hlast := congrArg List.getLast? (map_snd_numberFrom id (cs ++ [u]))
  rw [List.getLast?_map, List.getLast?_concat, Option.map_eq_some_iff] at hlast
  obtain ⟨⟨n, _⟩, hlast, rfl⟩ := hlast
  exact ⟨n, hlast⟩

/-- The methods of a tree are its subtrees that are methods. -/
theorem mem_methods {t : Tree} {m : Nat} :
    m ∈ t.methods ↔ ∃ s, t.subtree? m = some s ∧ s.kind.isMethod = true := by
  simp only [methods, numbered, subtree?, List.mem_map, List.mem_filter, Prod.exists,
    List.mem_zipIdx_iff_getElem?]
  constructor
  · rintro ⟨n, s, ⟨⟨u, k, hget, heq⟩, hmethod⟩, rfl⟩
    obtain ⟨rfl, rfl⟩ := Prod.mk.inj heq
    exact ⟨u, hget, hmethod⟩
  · rintro ⟨s, hget, hmethod⟩
    exact ⟨m, s, ⟨⟨s, m, hget, rfl⟩, hmethod⟩, rfl⟩

end Tree

/-- The body of a method with its number: the last child. -/
def Document.methodBody? (d : Document) (m : Nat) : Option (Nat × Tree) :=
  (d.tree.subtree? m).bind fun t => (Tree.numberFrom (m + 1) t.children).getLast?

/-- A method of a conforming tree has parameters, which are leaves, and then its body. -/
theorem Conforms.exists_parameters {s : Symbol} {t : Tree} (h : Conforms s t)
    (hmethod : t.kind.isMethod = true) : ∃ (ps : List Tree) (body : Tree),
      t.children = ps ++ [body] ∧
      (∀ p ∈ ps, ∃ d name type, p = .node d [] ∧ d.kind = .parameter name type) ∧
      Conforms .body body := by
  obtain @⟨_, d, ss, cs, rule, -, children⟩ := h
  change d.kind.isMethod = true at hmethod
  generalize d.kind = k at rule hmethod
  cases rule with
  | methodDecl name ms type n =>
      rcases List.eq_nil_or_concat cs with rfl | ⟨ps, body, rfl⟩
      · simpa using children.length_eq
      · rw [List.concat_eq_append, ← List.forall₂_reverse_iff, List.reverse_concat,
          List.reverse_concat, List.forall₂_cons, List.forall₂_reverse_iff] at children
        refine ⟨ps, body, List.concat_eq_append, ?_, children.1⟩
        intro p hp
        obtain @⟨_, e, _, _, rule', -, leaf⟩ := forall_mem_of_replicate children.2 p hp
        generalize hkind : e.kind = k' at rule'
        cases rule' with
        | parameter name _ =>
            rw [List.forall₂_nil_left_iff] at leaf
            exact ⟨e, name, _, by rw [leaf], hkind⟩
  | _ => cases hmethod

/-- The last child of a method of a conforming tree is its body. -/
theorem Conforms.exists_last {s : Symbol} {t : Tree} (h : Conforms s t)
    (hmethod : t.kind.isMethod = true) :
    ∃ ps body, t.children = ps ++ [body] ∧ Conforms .body body := by
  obtain ⟨ps, body, hchildren, -, hbody⟩ := h.exists_parameters hmethod
  exact ⟨ps, body, hchildren, hbody⟩

/-- The body of a method is a block. -/
theorem Conforms.kind_body {t : Tree} (h : Conforms .body t) : t.kind = .block := by
  obtain @⟨_, d, ss, cs, rule, -, -⟩ := h
  change d.kind = _
  generalize d.kind = k at rule
  cases rule
  rfl

/-- A method of a conforming tree has a body, and it is a statement to the execution. -/
theorem Conforms.exists_body {s : Symbol} {t : Tree} (h : Conforms s t)
    (hmethod : t.kind.isMethod = true) (m : Nat) : ∃ id body,
      (Tree.numberFrom (m + 1) t.children).getLast? = some (id, body) ∧ Steps.Statement body := by
  obtain ⟨ps, body, hchildren, hbody⟩ := h.exists_last hmethod
  obtain ⟨id, hlast⟩ := Tree.getLast?_numberFrom (m + 1) ps body
  rw [hchildren]
  exact ⟨id, body, hlast, hbody.executed⟩

/-- A method of a grammatical tree has its last child for its body. -/
theorem Tree.Grammatical.methodBody?_eq {d : Document} (h : d.tree.Grammatical) {m : Nat}
    {s : Tree} (hs : d.tree.subtree? m = some s) (hmethod : s.kind.isMethod = true) :
    ∃ id body, d.methodBody? m = some (id, body) ∧ d.tree.subtree? id = some body ∧
      s.children.getLast? = some body ∧ Conforms .body body := by
  obtain ⟨sym, hconforms⟩ := h.of_mem_subtrees (List.mem_of_getElem? hs)
  obtain ⟨ps, body, hchildren, hbody⟩ := hconforms.exists_last hmethod
  obtain ⟨id, hlast⟩ := Tree.getLast?_numberFrom (m + 1) ps body
  rw [← hchildren] at hlast
  refine ⟨id, body, ?_, Tree.subtree?_of_mem_numberFrom hs (List.mem_of_getLast? hlast), ?_,
    hbody⟩
  · rw [Document.methodBody?, hs, Option.bind_some, hlast]
  · rw [hchildren, List.getLast?_concat]

/-- The body of a method of a grammatical tree is a statement, and its graph is that of the
method. -/
theorem Tree.Grammatical.exists_methodBody {t : Tree} (h : t.Grammatical) {m : Nat}
    (hm : m ∈ t.methods) : ∃ id body, t.arena.methodGraph m = .ok (Steps.graph none id body) ∧
      t.subtree? id = some body ∧ Steps.Statement body := by
  obtain ⟨s, hs, hmethod⟩ := Tree.mem_methods.mp hm
  obtain ⟨sym, hconforms⟩ := h.of_mem_subtrees (List.mem_of_getElem? hs)
  obtain ⟨id, body, hlast, hbody⟩ := hconforms.exists_body hmethod m
  refine ⟨id, body, ?_, Tree.subtree?_of_mem_numberFrom hs (List.mem_of_getLast? hlast), hbody⟩
  rw [Arena.methodGraph, Arena.subtree?_arena, hs]
  dsimp only
  rw [hmethod, hlast]

/-- Every method of a grammatical tree has a graph, and it is that of a statement. -/
theorem Tree.Grammatical.exists_methodGraph {t : Tree} (h : t.Grammatical) {m : Nat}
    (hm : m ∈ t.methods) :
    ∃ id body, t.arena.methodGraph m = .ok (Steps.graph none id body) ∧ Steps.Statement body := by
  obtain ⟨id, body, hgraph, -, hbody⟩ := h.exists_methodBody hm
  exact ⟨id, body, hgraph, hbody⟩

/-- Every method of a document has a graph, and it is that of a statement. -/
theorem exists_methodGraph {source : Text} {d : Document} (h : parse source = .ok d) {m : Nat}
    (hm : m ∈ d.tree.methods) :
    ∃ id body, d.arena.methodGraph m = .ok (Steps.graph none id body) ∧ Steps.Statement body := by
  obtain ⟨-, -, -, -, -, hgrammatical, -⟩ := conforms_of_parse h
  exact Tree.Grammatical.exists_methodGraph hgrammatical hm

/-- The body of a method of a document is a statement, and its graph is that of the method. -/
theorem exists_methodBody {source : Text} {d : Document} (h : parse source = .ok d) {m : Nat}
    (hm : m ∈ d.tree.methods) : ∃ id body, d.methodBody? m = some (id, body) ∧
      d.tree.subtree? id = some body ∧ Steps.Statement body ∧
      d.arena.methodGraph m = .ok (Steps.graph none id body) := by
  obtain ⟨s, hs, hmethod⟩ := Tree.mem_methods.mp hm
  obtain ⟨-, -, -, -, -, hgrammatical, -⟩ := conforms_of_parse h
  obtain ⟨id, body, hbody, hid, -, hconforms⟩ := hgrammatical.methodBody?_eq hs hmethod
  refine ⟨id, body, hbody, hid, hconforms.executed, ?_⟩
  rw [Document.methodBody?, hs, Option.bind_some] at hbody
  rw [Arena.methodGraph, Document.arena, Arena.subtree?_arena, hs]
  dsimp only
  rw [hmethod, hbody]

/-- **The graph of a method is its order of execution**: its nodes are the steps of the body, the
entry is the first of them to be executed, and a step leads to just those that may be executed
immediately after it. -/
theorem methodGraph_isOrder {source : Text} {d : Document} (h : parse source = .ok d) {m : Nat}
    (hm : m ∈ d.tree.methods) :
    ∃ g id body, d.arena.methodGraph m = .ok g ∧ d.methodBody? m = some (id, body) ∧
      d.tree.subtree? id = some body ∧ Steps.IsOrder g id body := by
  obtain ⟨t, ht, hmethod⟩ := Tree.mem_methods.mp hm
  obtain ⟨-, -, -, -, -, hgrammatical, -⟩ := conforms_of_parse h
  obtain ⟨s, hconforms⟩ := hgrammatical.of_mem_subtrees (List.mem_of_getElem? ht)
  obtain ⟨id, body, hlast, hbody⟩ := hconforms.exists_body hmethod m
  refine ⟨_, id, body, ?_, ?_, ?_, hbody.isOrder id⟩
  · rw [Arena.methodGraph, Document.arena, Arena.subtree?_arena, ht]
    dsimp only
    rw [hmethod, hlast]
  · rw [Document.methodBody?, ht, Option.bind_some, hlast]
  · exact Tree.subtree?_of_mem_numberFrom ht (List.mem_of_getLast? hlast)

/-- A method in which a loop, a branch that returns and a step that is never executed meet. -/
theorem methodGraph_isOrder_loop : ∃ d g id body,
    parse "class A \x7b void M() \x7b while (a) if (b) \x7b return; c = 1; \x7d else ; \x7d \x7d".toList = .ok d ∧
      d.arena.methodGraph 2 = .ok g ∧ d.methodBody? 2 = some (id, body) ∧
        Steps.IsOrder g id body := by
  have hread : (parse
      "class A \x7b void M() \x7b while (a) if (b) \x7b return; c = 1; \x7d else ; \x7d \x7d".toList
        ).toOption.any (fun d => d.tree.methods.contains 2) = true := by
    decide +kernel
  obtain ⟨d, hd, hmethod⟩ := exists_document_of_any hread
  obtain ⟨g, id, body, hgraph, hbody, -, horder⟩ :=
    methodGraph_isOrder hd (m := 2) (List.contains_iff_mem.mp hmethod)
  exact ⟨d, g, id, body, hd, hgraph, hbody, horder⟩

end SharpMutants
