import SharpMutants.Proofs.Dataflow.Fixpoint

/-!
# The work ends with the least solution

The equations of a flow problem say what holds before and after every step of a graph
(`Solves`).  If facts flow forward, what leaves the predecessors of a step arrives there,
and at the entry the initial facts too; if they flow backward, what leaves the successors
arrives, and the initial facts where there are no successors.

`Runs` is the loop that the work is: as long as a step waits in the queue, it is taken out
and visited.  Nothing bounds the loop, and yet it ends (`exists_runs`), after at most one
visit for each node and one for each edge and each fact.  A fact that arrives at a step is
in every solution (`Balanced.mem_of_arrives`), so the tables at the end are the least
solution: `solve_isLeastSolution`.
-/

namespace SharpMutants

open Std

/-- Sets are equal just if they have the same elements. -/
theorem FactSet.eq_iff {α : Type} [Ord α] [TransOrd α] [LawfulEqOrd α] {s t : FactSet α} :
    s = t ↔ ∀ x, x ∈ s ↔ x ∈ t :=
  ⟨fun h _ => h ▸ Iff.rfl, eq_of_mem_iff⟩

namespace FlowProblem

variable {α κ : Type} [Ord α]

/-- The solution that the tables of the work are. -/
def solutionOf (p : FlowProblem α κ) (w : Work α) : FlowSolution α :=
  if p.backward then ⟨w.leaving, w.arriving, w.visits⟩ else ⟨w.arriving, w.leaving, w.visits⟩

/-- The solution counts the visits of the work. -/
theorem visits_solutionOf (p : FlowProblem α κ) (w : Work α) :
    (p.solutionOf w).visits = w.visits := by
  unfold solutionOf
  split <;> rfl

variable [TransOrd α] [LawfulEqOrd α] {p : FlowProblem α κ} {g : FlowGraph}

/-- The bound on the visits: one for each node, and one for each edge and each fact. -/
theorem visitBound_eq (hg : g.Closed) (hbottom : p.bottom = .empty) : p.visitBound g =
    g.size + g.edgeCount * (FactSet.unions (p.initial :: g.nodes.map p.generates)).size := by
  have hperm := p.perm_firstQueue hg
  have hfacts : p.allFacts g = FactSet.unions (p.initial :: g.nodes.map p.generates) := by
    apply FactSet.eq_of_mem_iff
    intro x
    simp only [allFacts, FactSet.mem_unions, List.mem_cons, List.mem_map, exists_eq_or_imp,
      hbottom, hperm.mem_iff, FactSet.not_mem_empty, false_or]
  rw [visitBound, hfacts, hperm.length_eq, FlowGraph.nodes, List.length_reverse, FlowGraph.size]

/-! ## Equations -/

section Equations

variable [DecidableEq κ]

/-- Sets of facts before and after the steps of a graph fulfil the equations of a problem. -/
def Solves (p : FlowProblem α κ) (g : FlowGraph) (before after : Nat → FactSet α) : Prop :=
  ∀ n ∈ g.nodes,
    if p.backward then
      after n = (if g.successors n = [] then p.initial
        else .unions ((g.successors n).map before)) ∧
      before n = p.transfer n (after n)
    else
      before n = (FactSet.unions ((g.predecessors n).map after)).union
        (if g.entry = some n then p.initial else .empty) ∧
      after n = p.transfer n (before n)

/-- The same equations in the direction of the flow. -/
structure Balanced (p : FlowProblem α κ) (g : FlowGraph) (arriving leaving : Nat → FactSet α) :
    Prop where
  mem_arriving : ∀ n ∈ g.nodes, ∀ x, x ∈ arriving n ↔
    (∃ k, p.Feeds g k n ∧ x ∈ leaving k) ∨ (p.isBoundary g n = true ∧ x ∈ p.initial)
  leaving_eq : ∀ n ∈ g.nodes, leaving n = p.transfer n (arriving n)

variable {before after arriving leaving : Nat → FactSet α}

/-- A forward problem is solved by what arrives before a step and leaves after it. -/
theorem solves_forward_iff (hg : g.Closed) (hforward : p.backward = false) :
    p.Solves g before after ↔ p.Balanced g before after := by
  have hbefore : ∀ n, before n = (FactSet.unions ((g.predecessors n).map after)).union
        (if g.entry = some n then p.initial else .empty) ↔
      ∀ x, x ∈ before n ↔
        (∃ k, p.Feeds g k n ∧ x ∈ after k) ∨ (p.isBoundary g n = true ∧ x ∈ p.initial) := by
    intro n
    rw [FactSet.eq_iff]
    apply forall_congr'
    intro x
    by_cases hentry : g.entry = some n <;>
      simp [FactSet.mem_union, FactSet.mem_unions, FactSet.not_mem_empty, mem_predecessors hg,
        Feeds, isBoundary, hforward, hentry]
  constructor
  · intro h
    unfold Solves at h
    simp only [hforward, Bool.false_eq_true, if_false] at h
    exact ⟨fun n hn => (hbefore n).mp (h n hn).1, fun n hn => (h n hn).2⟩
  · intro h n hn
    simp only [hforward, Bool.false_eq_true, if_false]
    exact ⟨(hbefore n).mpr (h.mem_arriving n hn), h.leaving_eq n hn⟩

/-- A backward problem is solved by what arrives after a step and leaves before it. -/
theorem solves_backward_iff (hbackward : p.backward = true) :
    p.Solves g before after ↔ p.Balanced g after before := by
  have hafter : ∀ n, after n = (if g.successors n = [] then p.initial
        else .unions ((g.successors n).map before)) ↔
      ∀ x, x ∈ after n ↔
        (∃ k, p.Feeds g k n ∧ x ∈ before k) ∨ (p.isBoundary g n = true ∧ x ∈ p.initial) := by
    intro n
    rw [FactSet.eq_iff]
    apply forall_congr'
    intro x
    by_cases hleaf : g.successors n = [] <;>
      simp [FactSet.mem_unions, Feeds, isBoundary, hbackward, hleaf]
  constructor
  · intro h
    unfold Solves at h
    simp only [hbackward, if_true] at h
    exact ⟨fun n hn => (hafter n).mp (h n hn).1, fun n hn => (h n hn).2⟩
  · intro h n hn
    simp only [hbackward, if_true]
    exact ⟨(hafter n).mpr (h.mem_arriving n hn), h.leaving_eq n hn⟩

/-- **What arrives at a step** is in every solution. -/
theorem Balanced.mem_of_arrives (h : p.Balanced g arriving leaving) (hg : g.Closed) {n : Nat}
    {x : α} (hn : n ∈ g.nodes) (hx : p.Arrives g x n) : x ∈ arriving n := by
  induction hx with
  | initial hboundary hx => exact (h.mem_arriving _ hn x).mpr (.inr ⟨hboundary, hx⟩)
  | @generated k n hfeeds hx =>
      have hk := hfeeds.source_mem hg
      apply (h.mem_arriving n hn x).mpr
      refine .inl ⟨k, hfeeds, ?_⟩
      rw [h.leaving_eq k hk, mem_transfer]
      exact .inr hx
  | @passed k n hfeeds hpass _ ih =>
      have hk := hfeeds.source_mem hg
      apply (h.mem_arriving n hn x).mpr
      refine .inl ⟨k, hfeeds, ?_⟩
      rw [h.leaving_eq k hk, mem_transfer]
      exact .inl ⟨ih hk, hpass⟩

/-- What leaves a step on some path is in every solution of the equations. -/
theorem Balanced.mem_of_leaves (h : p.Balanced g arriving leaving) (hg : g.Closed) {n : Nat}
    {x : α} (hn : n ∈ g.nodes) (hx : p.Leaves g x n) : x ∈ leaving n := by
  rw [h.leaving_eq n hn, mem_transfer]
  exact hx.imp_left fun hx => ⟨h.mem_of_arrives hg hn hx.1, hx.2⟩

end Equations

/-! ## The loop -/

variable [DecidableEq κ] [DecidableEq α]

theorem solve_eq (p : FlowProblem α κ) (g : FlowGraph) : p.solve g = p.solutionOf (p.finish g) :=
  rfl

/-- The loop of the work, with the number of steps that it takes out of the queue. -/
inductive Runs (p : FlowProblem α κ) (g : FlowGraph) : Nat → Work α → Work α → Prop
  | done {w : Work α} (hqueue : w.queue = []) : Runs p g 0 w w
  | visit {count n : Nat} {rest : List Nat} {w w' : Work α} (hqueue : w.queue = n :: rest)
      (run : Runs p g count (p.visit g g.transposed w n rest) w') : Runs p g (count + 1) w w'

/-- Every visit is counted. -/
theorem Runs.visits_eq {count : Nat} {w w' : Work α} (h : Runs p g count w w') :
    w'.visits = w.visits + count := by
  induction h with
  | done _ => rfl
  | visit hqueue _ ih =>
      rw [ih, visits_visit]
      omega

/-- Work that empties the queue within a bound is the loop. -/
theorem exists_runs_work {bound : Nat} {w : Work α}
    (hdone : (p.work g g.transposed bound w).queue = []) :
    ∃ count, Runs p g count w (p.work g g.transposed bound w) := by
  induction bound generalizing w with
  | zero => exact ⟨0, .done hdone⟩
  | succ bound ih =>
      unfold work at hdone ⊢
      cases hqueue : w.queue with
      | nil => exact ⟨0, .done hqueue⟩
      | cons n rest =>
          rw [hqueue] at hdone
          obtain ⟨count, hrun⟩ := ih hdone
          exact ⟨count + 1, .visit hqueue hrun⟩

/-- **The loop ends** on a closed graph, in the work at the end. -/
theorem exists_runs (hg : g.Closed) (hbottom : p.bottom = .empty) :
    ∃ count, Runs p g count (p.start g) (p.finish g) := by
  have hwork := (invariant_start hg hbottom).work hg hbottom
    (Nat.le_of_eq (remaining_start hg hbottom))
  exact exists_runs_work hwork.2

/-- **The tables at the end** are the least that fulfil the equations. -/
theorem exists_least (hg : g.Closed) (hbottom : p.bottom = .empty) :
    ∃ arriving leaving : Nat → FactSet α,
      (∀ n ∈ g.nodes, (p.finish g).arriving[n]? = some (arriving n) ∧
        (p.finish g).leaving[n]? = some (leaving n)) ∧
      p.Balanced g arriving leaving ∧
      ∀ arriving' leaving', p.Balanced g arriving' leaving' → ∀ n ∈ g.nodes,
        (∀ x ∈ arriving n, x ∈ arriving' n) ∧ ∀ x ∈ leaving n, x ∈ leaving' n := by
  have htables : ∀ n, ∃ into out : FactSet α, n ∈ g.nodes →
      (p.finish g).arriving[n]? = some into ∧ (p.finish g).leaving[n]? = some out ∧
        (∀ x, x ∈ into ↔ p.Arrives g x n) ∧ ∀ x, x ∈ out ↔ p.Leaves g x n := by
    intro n
    by_cases hn : n ∈ g.nodes
    · obtain ⟨into, out, htable⟩ := exists_finish (p := p) hg hbottom hn
      exact ⟨into, out, fun _ => htable⟩
    · exact ⟨.empty, .empty, fun h => absurd h hn⟩
  choose arriving leaving htables using htables
  refine ⟨arriving, leaving, ?_, ⟨?_, ?_⟩, ?_⟩
  · intro n hn
    exact ⟨(htables n hn).1, (htables n hn).2.1⟩
  · intro n hn x
    obtain ⟨-, -, harrive, -⟩ := htables n hn
    rw [harrive, arrives_iff]
    apply or_congr_left
    apply exists_congr
    intro k
    apply and_congr_right
    intro hfeeds
    obtain ⟨-, -, -, hleave⟩ := htables k (hfeeds.source_mem hg)
    exact (hleave x).symm
  · intro n hn
    obtain ⟨-, -, harrive, hleave⟩ := htables n hn
    apply FactSet.eq_of_mem_iff
    intro x
    rw [mem_transfer, hleave, harrive, Leaves]
  · intro arriving' leaving' h n hn
    obtain ⟨-, -, harrive, hleave⟩ := htables n hn
    exact ⟨fun x hx => h.mem_of_arrives hg hn ((harrive x).mp hx),
      fun x hx => h.mem_of_leaves hg hn ((hleave x).mp hx)⟩

end FlowProblem

/-- **The solver ends with the least solution.**  On every built graph whose entry, if it has one,
is a node, the loop of the work ends after at most one visit for each node and one for each edge
and each fact.  Its tables solve the equations of the problem, and every other solution includes
them. -/
theorem solve_isLeastSolution {α κ : Type} [Ord α] [TransOrd α] [LawfulEqOrd α] [DecidableEq α]
    [DecidableEq κ] (p : FlowProblem α κ) (hbottom : p.bottom = .empty) {g : FlowGraph}
    {edits : List GraphEdit} (hbuilt : FlowGraph.build edits = g)
    (hentry : ∀ n, g.entry = some n → n ∈ g.nodes) :
    ∃ count w, p.Runs g count (p.start g) w ∧
      count ≤ g.size +
        g.edgeCount * (FactSet.unions (p.initial :: g.nodes.map p.generates)).size ∧
      p.solve g = p.solutionOf w ∧ (p.solve g).visits = count ∧
      ∃ before after : Nat → FactSet α,
        (∀ n ∈ g.nodes, (p.solve g).before[n]? = some (before n) ∧
          (p.solve g).after[n]? = some (after n)) ∧
        p.Solves g before after ∧
        ∀ before' after', p.Solves g before' after' → ∀ n ∈ g.nodes,
          (∀ x ∈ before n, x ∈ before' n) ∧ ∀ x ∈ after n, x ∈ after' n := by
  subst hbuilt
  have hg := FlowGraph.closed_build fun {n} => hentry n
  obtain ⟨count, hrun⟩ := FlowProblem.exists_runs hg hbottom
  have hvisits : (p.solve (FlowGraph.build edits)).visits = count := by
    rw [FlowProblem.solve_eq, FlowProblem.visits_solutionOf, hrun.visits_eq]
    exact Nat.zero_add count
  have hbound := p.visits_solve_le (FlowGraph.build edits)
  rw [hvisits, FlowProblem.visitBound_eq hg hbottom] at hbound
  refine ⟨count, _, hrun, hbound, p.solve_eq _, hvisits, ?_⟩
  obtain ⟨arriving, leaving, htables, hbalanced, hleast⟩ := FlowProblem.exists_least hg hbottom
  rw [FlowProblem.solve_eq, FlowProblem.solutionOf]
  by_cases hbackward : p.backward = true
  · -- What arrives at a step is what holds after it.
    rw [if_pos hbackward]
    refine ⟨leaving, arriving, fun n hn => (htables n hn).symm, ?_, ?_⟩
    · exact (FlowProblem.solves_backward_iff hbackward).mpr hbalanced
    · intro before' after' hother n hn
      have hother := (FlowProblem.solves_backward_iff hbackward).mp hother
      exact (hleast after' before' hother n hn).symm
  · have hforward := Bool.eq_false_iff.mpr hbackward
    rw [if_neg hbackward]
    refine ⟨arriving, leaving, htables, ?_, ?_⟩
    · exact (FlowProblem.solves_forward_iff hg hforward).mpr hbalanced
    · intro before' after' hother n hn
      have hother := (FlowProblem.solves_forward_iff hg hforward).mp hother
      exact hleast before' after' hother n hn

/-- A loop, initial facts, a step that kills a fact and one to which nothing leads. -/
theorem solve_isLeastSolution_loop :
    ∃ (p : FlowProblem Nat Nat) (g : FlowGraph) (count : Nat) (w : FlowProblem.Work Nat),
      p = ⟨false, .ofList [0], .empty, fun n => .ofList [n], id,
        fun n => if n = 3 then [1] else []⟩ ∧
      FlowGraph.build [.entry (some 1), .edge 1 2, .edge 2 3, .edge 3 2, .edge 2 4, .edge 9 4] = g ∧
      (∀ n, g.entry = some n → n ∈ g.nodes) ∧
      p.Runs g count (p.start g) w ∧ count ≤ 35 ∧ p.solve g = p.solutionOf w ∧
      ∃ before after, p.Solves g before after ∧
        ∀ before' after', p.Solves g before' after' →
          ∀ n ∈ g.nodes, ∀ x ∈ before n, x ∈ before' n := by
  have hentry : ∀ n, (FlowGraph.build [.entry (some 1), .edge 1 2, .edge 2 3, .edge 3 2, .edge 2 4,
      .edge 9 4]).entry = some n → n ∈ (FlowGraph.build [.entry (some 1), .edge 1 2, .edge 2 3,
        .edge 3 2, .edge 2 4, .edge 9 4]).nodes := by
    intro n hn
    obtain rfl := Option.some.inj hn
    decide +kernel
  obtain ⟨count, w, hrun, hcount, hsolve, -, before, after, -, hsolves, hleast⟩ :=
    solve_isLeastSolution (⟨false, .ofList [0], .empty, fun n => .ofList [n], id,
      fun n => if n = 3 then [1] else []⟩ : FlowProblem Nat Nat) rfl rfl hentry
  refine ⟨_, _, count, w, rfl, rfl, hentry, hrun, hcount.trans ?_, hsolve, before, after, hsolves,
    ?_⟩
  · decide +kernel
  · intro before' after' hother n hn
    exact (hleast before' after' hother n hn).1

end SharpMutants
