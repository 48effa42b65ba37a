import Mathlib.Algebra.BigOperators.Ring.List
import Mathlib.Algebra.Ring.Nat
import SharpMutants.Dataflow.StackSearch
import SharpMutants.Proofs.Dataflow.DepthFirst

/-!
# Postorders

The search by stack comes to the same end as the search by recursion
(`runs_searchFrom`): from the moment at which a node is put on the stack to the moment
at which it is taken away, everything found below the node is finished.  A node on the
stack is taken up once for each successor and once more to be finished, so the search is
over after as many steps as the nodes found and their edges (`Closed.runs_search`).

What it leaves is a depth-first postorder (`postorder_depthFirst`): every node that can
be reached stands there once, the entry at the end, and a successor stands before its
node unless it leads back to the node.  Without cycles the order is topological when it
is turned round.
-/

namespace SharpMutants

namespace FlowGraph

/-! ## The number of steps -/

/-- How often nodes are taken up: once for each successor, and once to be finished. -/
def weight (next : Nat → List Nat) (ns : List Nat) : Nat :=
  (ns.map fun n => (next n).length + 1).sum

section Weight

variable {next : Nat → List Nat} {n : Nat} {ns ms : List Nat} {g : FlowGraph}

theorem weight_cons : weight next (n :: ns) = (next n).length + 1 + weight next ns := by
  simp [weight]

theorem weight_append : weight next (ns ++ ms) = weight next ns + weight next ms := by
  simp [weight]

/-- The order of a list does not change its weight. -/
theorem weight_perm (h : ns.Perm ms) : weight next ns = weight next ms :=
  (h.map fun n => (next n).length + 1).sum_nat

/-- All nodes are taken up as often as there are nodes and edges. -/
theorem weight_nodes : weight g.successors g.nodes = g.size + g.edgeCount := by
  have hsum : ∀ ns : List Nat, weight g.successors ns =
      ns.length + (ns.flatMap fun n => (g.successors n).map fun m => (n, m)).length := by
    intro ns
    induction ns with
    | nil => rfl
    | cons n ns ih =>
        rw [weight_cons, ih, List.flatMap_cons, List.length_append, List.length_map,
          List.length_cons]
        omega
  rw [hsum, edgeCount, edges, nodes, List.length_reverse, size]

/-- The nodes that a search finishes are taken up no more often than that. -/
theorem Closed.weight_finished_le (h : Closed g) :
    weight g.successors g.search.finished ≤ g.size + g.edgeCount := by
  rw [← weight_nodes, ← weight_perm h.perm_finished, weight_append]
  exact Nat.le_add_right _ _

end Weight

/-! ## The stack and the recursion -/

namespace StackSearch

variable {next : Nat → List Nat} {n m k looked : Nat} {stack : List (Nat × Nat)}
  {finished : List Nat} {found : Std.TreeSet Nat} {t u : StackSearch}

/-- A node without further successors is finished. -/
theorem Runs.finish (hlooked : looked = (next n).length)
    (h : Runs next k ⟨found, stack, n :: finished⟩ u) :
    Runs next (k + 1) ⟨found, (n, looked) :: stack, finished⟩ u := by
  refine .step ?_ h
  simp [step?, hlooked]

/-- A successor that has been found before is passed over. -/
theorem Runs.pass (hm : (next n)[looked]? = some m) (hold : m ∈ found)
    (h : Runs next k ⟨found, (n, looked + 1) :: stack, finished⟩ u) :
    Runs next (k + 1) ⟨found, (n, looked) :: stack, finished⟩ u := by
  refine .step ?_ h
  simp [step?, hm, hold]

/-- A new successor goes onto the stack. -/
theorem Runs.push (hm : (next n)[looked]? = some m) (hnew : m ∉ found)
    (h : Runs next k ⟨found.insert m, (m, 0) :: (n, looked + 1) :: stack, finished⟩ u) :
    Runs next (k + 1) ⟨found, (n, looked) :: stack, finished⟩ u := by
  refine .step ?_ h
  simp [step?, hm, hnew]

end StackSearch

open StackSearch

variable {next : Nat → List Nat} {nodes : List Nat} {bound : Nat} {s : Search} {n : Nat}
  {u : StackSearch}

/-- A search by recursion as one by stack that has gone as far. -/
def Search.onStack (s : Search) (stack : List (Nat × Nat)) : StackSearch :=
  ⟨s.found, stack, s.finished⟩

/-- The stack looks at the successors of a node that are left as the recursion goes through them, if
it does so for each of them. -/
theorem runs_foldl {visit : Search → Nat → Search} {ms looked : List Nat}
    (hsplit : next n = looked ++ ms) (hms : ∀ m ∈ ms, m ∈ nodes)
    (hextends : ∀ s m, m ∈ nodes → m ∉ s.found → room nodes s ≤ bound →
      Extends nodes s (visit s m))
    (hvisit : ∀ s m stack k, m ∈ nodes → m ∉ s.found → room nodes s ≤ bound →
      Runs next k ((visit s m).onStack stack) u →
        ∃ j, Runs next j ((s.find m).onStack ((m, 0) :: stack)) u ∧
          weight next s.finished + j = weight next (visit s m).finished + k)
    (hroom : room nodes s ≤ bound) {stack : List (Nat × Nat)} {k : Nat}
    (h : Runs next k ((ms.foldl (fun s m => if s.found.contains m then s else visit s m) s).onStack
      ((n, (next n).length) :: stack)) u) :
    ∃ j, Runs next j (s.onStack ((n, looked.length) :: stack)) u ∧
      weight next s.finished + j = weight next
        (ms.foldl (fun s m => if s.found.contains m then s else visit s m) s).finished +
          ms.length + k := by
  induction ms generalizing s looked with
  | nil =>
      rw [List.append_nil] at hsplit
      rw [hsplit] at h
      exact ⟨k, h, rfl⟩
  | cons m ms ih =>
      obtain ⟨hm, hms⟩ := List.forall_mem_cons.mp hms
      have hnext : (next n)[looked.length]? = some m := by
        rw [hsplit, List.getElem?_append_right (Nat.le_refl _), Nat.sub_self,
          List.getElem?_cons_zero]
      have hsplit' : next n = (looked ++ [m]) ++ ms := by
        rw [hsplit, List.append_assoc, List.singleton_append]
      rw [List.foldl_cons] at h ⊢
      by_cases hold : m ∈ s.found
      · rw [if_pos (Std.TreeSet.contains_iff_mem.mpr hold)] at h ⊢
        obtain ⟨j, hrun, hcount⟩ := ih hsplit' hms hroom h
        rw [List.length_append, List.length_singleton] at hrun
        refine ⟨j + 1, hrun.pass hnext hold, ?_⟩
        rw [List.length_cons]
        omega
      · rw [if_neg (by rwa [Std.TreeSet.contains_iff_mem])] at h ⊢
        have hroom' := Nat.le_trans (hextends s m hm hold hroom).room_le hroom
        obtain ⟨i, hafter, hcountAfter⟩ := ih hsplit' hms hroom' h
        rw [List.length_append, List.length_singleton] at hafter
        obtain ⟨j, hrun, hcount⟩ := hvisit s m _ i hm hold hroom hafter
        refine ⟨j + 1, hrun.push hnext hold, ?_⟩
        rw [List.length_cons]
        omega

/-- The search from a node finishes the node when it has gone through the successors. -/
theorem finished_searchFrom (next : Nat → List Nat) (bound n : Nat) (s : Search) :
    (searchFrom next (bound + 1) s n).finished = n :: ((next n).foldl (fun s m =>
      if s.found.contains m then s else searchFrom next bound (s.find m) m) s).finished := rfl

/-- **The stack does what the recursion does**: between the moment at which a node is put on the
stack and the moment at which it is taken away lies the search from the node. -/
theorem runs_searchFrom (hnext : ∀ n ∈ nodes, ∀ m ∈ next n, m ∈ nodes) (hn : n ∈ nodes)
    (hnew : n ∉ s.found) (hbound : room nodes s ≤ bound) {stack : List (Nat × Nat)} {k : Nat}
    (h : Runs next k ((searchFrom next bound (s.find n) n).onStack stack) u) :
    ∃ j, Runs next j ((s.find n).onStack ((n, 0) :: stack)) u ∧
      weight next s.finished + j =
        weight next (searchFrom next bound (s.find n) n).finished + k := by
  induction bound generalizing s n stack k with
  | zero =>
      have := room_find_lt hn hnew
      omega
  | succ bound ih =>
      have hroom : room nodes (s.find n) ≤ bound := by
        have := room_find_lt hn hnew
        omega
      obtain ⟨j, hrun, hcount⟩ := runs_foldl
        (show next n = [] ++ next n from rfl) (hnext n hn)
        (fun s m hm hnew hroom => extends_searchFrom hnext hm hnew hroom)
        (fun s m stack k hm hnew hroom h => ih hm hnew hroom h) hroom (h.finish rfl)
      refine ⟨j, hrun, hcount.trans ?_⟩
      rw [finished_searchFrom, weight_cons]
      omega

variable {g : FlowGraph} {entry : Nat}

/-- **The search by stack ends**, after no more steps than there are nodes and edges, with the
postorder. -/
theorem Closed.runs_search (h : Closed g) (hentry : g.entry = some entry) :
    ∃ k s, k ≤ g.size + g.edgeCount ∧ Runs g.successors k (.start entry) s ∧
      s.finished.reverse = g.postorder := by
  have hroom : room g.nodes ⟨∅, []⟩ ≤ g.size + 1 := by
    have hle := List.length_filter_le (fun n => !(∅ : Std.TreeSet Nat).contains n) g.nodes
    rw [FlowGraph.nodes, List.length_reverse] at hle
    exact Nat.le_succ_of_le hle
  have hsearch : g.search =
      searchFrom g.successors (g.size + 1) (Search.find ⟨∅, []⟩ entry) entry := by
    rw [search, hentry]
    rfl
  have hover : Runs g.successors 0 (g.search.onStack []) (g.search.onStack []) := .over rfl
  obtain ⟨k, hrun, hcount⟩ : ∃ k, Runs g.successors k (.start entry) (g.search.onStack []) ∧
      weight g.successors [] + k = weight g.successors g.search.finished := by
    rw [hsearch] at hover ⊢
    exact runs_searchFrom (fun n _ m hm => h.target_mem hm) (h.entry_mem hentry)
      Std.TreeSet.not_mem_emptyc hroom hover
  refine ⟨k, _, ?_, hrun, rfl⟩
  have hle := h.weight_finished_le
  rw [weight, List.map_nil, List.sum_nil] at hcount
  omega

/-! ## The order -/

namespace Trail

variable {root m : Nat} {p : List Nat}

/-- Every node of a trail leads to the last one. -/
theorem reaches_of_mem (h : Trail next root (n :: p)) (hm : m ∈ n :: p) :
    Relation.ReflTransGen (fun n m => m ∈ next n) m n := by
  induction p generalizing n with
  | nil =>
      rw [List.mem_singleton] at hm
      exact hm ▸ .refl
  | cons k p ih =>
      rcases List.mem_cons.mp hm with rfl | hm
      · exact .refl
      · exact (ih h.tail hm).tail (List.isChain_cons_cons.mp h.chain).1

end Trail

/-- The search finishes the entry at the end. -/
theorem getLast?_postorder (hentry : g.entry = some entry) :
    g.postorder.getLast? = some entry := by
  rw [postorder, List.getLast?_reverse, reversePostorder, search, hentry]
  rfl

/-- A successor stands before its node in postorder, or it leads back to the node. -/
theorem Closed.before_or_reaches (h : Closed g) {m : Nat} (hn : n ∈ g.postorder)
    (hm : m ∈ g.successors n) : g.postorder.idxOf m < g.postorder.idxOf n ∨ g.Reaches m n := by
  rcases h.before_or_trail hn hm with hlater | ⟨entry, q, -, htrail, hmem⟩
  · have hbefore : [m, n].Sublist g.postorder := by
      have hreverse := hlater.reverse
      rwa [List.reverse_cons, List.reverse_singleton] at hreverse
    exact .inl (idxOf_lt_of_sublist hbefore (List.nodup_reverse.mpr h.nodup_reversePostorder))
  · exact .inr (htrail.reaches_of_mem hmem)

/-- No path leads from a node that can be reached back to it. -/
def Acyclic (g : FlowGraph) : Prop :=
  ∀ n ∈ g.postorder, ¬Relation.TransGen (fun n m => m ∈ g.successors n) n n

/-- Without cycles a successor stands behind its node in reverse postorder. -/
theorem Closed.idxOf_lt_of_acyclic (h : Closed g) (hacyclic : g.Acyclic) {m : Nat}
    (hn : n ∈ g.postorder) (hm : m ∈ g.successors n) :
    g.reversePostorder.idxOf n < g.reversePostorder.idxOf m := by
  rcases h.before_or_trail hn hm with hlater | ⟨entry, q, -, htrail, hmem⟩
  · exact idxOf_lt_of_sublist hlater h.nodup_reversePostorder
  · exact absurd (.head' hm (htrail.reaches_of_mem hmem)) (hacyclic n hn)

end FlowGraph

open FlowGraph in
/-- **The postorder is that of a depth-first search.**  In a built graph with a node as its entry
the search by stack ends, after no more steps than there are nodes and edges, with a list of the
nodes that can be reached from the entry, each once and the entry last.  A successor of a node on
the list stands before the node unless a path leads from it back to the node.  So without cycles
every edge leads onward in reverse postorder. -/
theorem postorder_depthFirst {edits : List GraphEdit} {g : FlowGraph} (hbuilt : build edits = g)
    {entry : Nat} (hentry : g.entry = some entry) (hnode : entry ∈ g.nodes) :
    (∃ k s, k ≤ g.size + g.edgeCount ∧ StackSearch.Runs g.successors k (.start entry) s ∧
      s.finished.reverse = g.postorder) ∧
    g.postorder.Nodup ∧ (∀ n, n ∈ g.postorder ↔ g.Reaches entry n) ∧
    g.postorder.getLast? = some entry ∧
    (∀ n ∈ g.postorder, ∀ m ∈ g.successors n,
      g.postorder.idxOf m < g.postorder.idxOf n ∨ g.Reaches m n) ∧
    (g.Acyclic → ∀ n ∈ g.postorder, ∀ m ∈ g.successors n,
      g.reversePostorder.idxOf n < g.reversePostorder.idxOf m) := by
  have hclosed : Closed g := by
    subst hbuilt
    refine closed_build fun {n} hn => ?_
    obtain rfl := Option.some.inj (hentry.symm.trans hn)
    exact hnode
  refine ⟨hclosed.runs_search hentry, List.nodup_reverse.mpr hclosed.nodup_reversePostorder,
    fun n => ?_, getLast?_postorder hentry, fun n hn m hm => hclosed.before_or_reaches hn hm,
    fun hacyclic n hn m hm => hclosed.idxOf_lt_of_acyclic hacyclic hn hm⟩
  rw [hclosed.mem_postorder_iff]
  constructor
  · intro hmem
    obtain ⟨entry', hentry', hreaches⟩ := hmem
    obtain rfl := Option.some.inj (hentry.symm.trans hentry')
    exact hreaches
  · intro hreaches
    exact ⟨entry, hentry, hreaches⟩

open FlowGraph in
/-- Two ways from one node to another, beside a cycle that cannot be reached. -/
theorem postorder_depthFirst_ways : ∃ g k s,
    build [.entry (some 1), .edge 1 2, .edge 1 3, .edge 2 4, .edge 3 4, .edge 9 9, .edge 9 4] = g ∧
      g.entry = some 1 ∧ 1 ∈ g.nodes ∧ k ≤ 11 ∧ StackSearch.Runs g.successors k (.start 1) s ∧
      s.finished = [1, 3, 2, 4] ∧ (4 ∈ g.postorder ↔ g.Reaches 1 4) ∧ g.Acyclic ∧
      g.reversePostorder.idxOf 2 < g.reversePostorder.idxOf 4 := by
  have hnode : 1 ∈ (build [.entry (some 1), .edge 1 2, .edge 1 3, .edge 2 4, .edge 3 4, .edge 9 9,
      .edge 9 4]).nodes := by
    decide +kernel
  have hfour : (build [.entry (some 1), .edge 1 2, .edge 1 3, .edge 2 4, .edge 3 4, .edge 9 9,
      .edge 9 4]).postorder = [4, 2, 3, 1] := by
    decide +kernel
  have hentry : (build [.entry (some 1), .edge 1 2, .edge 1 3, .edge 2 4, .edge 3 4, .edge 9 9,
      .edge 9 4]).entry = some 1 := rfl
  obtain ⟨⟨k, s, hbound, hrun, hend⟩, -, hreaches, -, -, hordered⟩ :=
    postorder_depthFirst rfl hentry hnode
  have hup : ∀ {n m}, m ∈ (build [.entry (some 1), .edge 1 2, .edge 1 3, .edge 2 4, .edge 3 4,
      .edge 9 9, .edge 9 4]).successors n → n ≤ 4 → n < m ∧ m ≤ 4 := by
    intro n m hm hn
    have hedge := mem_successors_build.mp hm
    simp only [List.mem_cons, GraphEdit.edge.injEq, reduceCtorEq, List.not_mem_nil, or_false,
      false_or] at hedge
    omega
  have hacyclic : (build [.entry (some 1), .edge 1 2, .edge 1 3, .edge 2 4, .edge 3 4, .edge 9 9,
      .edge 9 4]).Acyclic := by
    intro n hn hcycle
    have hlow : n ≤ 4 := by
      rw [hfour] at hn
      simp only [List.mem_cons, List.not_mem_nil, or_false] at hn
      omega
    have hback : n < n ∧ n ≤ 4 := by
      refine Relation.TransGen.trans_induction_on (motive := fun {n m} _ => n ≤ 4 → n < m ∧ m ≤ 4)
        hcycle (fun hedge hn => hup hedge hn) (fun _ _ hfirst hsecond hn => ?_) hlow
      have := hfirst hn
      have := hsecond this.2
      omega
    exact Nat.lt_irrefl n hback.1
  refine ⟨_, k, s, rfl, rfl, hnode, hbound, hrun, ?_, hreaches 4, hacyclic, ?_⟩
  · rw [← List.reverse_reverse s.finished, hend, hfour]
    rfl
  · exact hordered hacyclic 2 (by rw [hfour]; decide) 4 (mem_successors_build.mpr (by simp))

end SharpMutants
