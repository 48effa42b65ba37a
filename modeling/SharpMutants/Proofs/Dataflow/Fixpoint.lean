import Mathlib.Algebra.BigOperators.Group.Finset.Basic
import Mathlib.Algebra.BigOperators.Ring.List
import Mathlib.Algebra.Ring.Nat
import Mathlib.Data.List.Sort
import SharpMutants.Dataflow.Fixpoint
import SharpMutants.Proofs.Dataflow.Search

/-!
# The solution of flow equations

A fact arrives at a step if it can travel there: from the boundary, or from a step that
generates it, past steps that do not kill it (`Arrives`).  The work on a problem over a
closed graph keeps five properties (`Invariant`): in particular all its facts have
arrived, what leaves a step only grows, and a step whose equations are violated waits in
the queue.

What is in the queue and what can still come to leave the steps, counted once for every
edge on which it would travel (`remaining`), falls with every visit.  It is the bound on
the visits at the beginning, so the queue is empty at the end, and the tables hold just
the facts that arrive and leave: `exists_finish`.
-/

namespace SharpMutants

open Std

namespace FactSet

variable {α : Type} [Ord α] {s t : FactSet α}

theorem not_mem_empty {x : α} : ¬x ∈ (empty : FactSet α) := List.not_mem_nil

variable [LawfulEqOrd α]

/-- A list of facts has no fact twice. -/
theorem nodup (s : FactSet α) : s.toList.Nodup :=
  s.ascending.imp fun {a b} h hab => by
    have hself : compare b b = .eq := ReflCmp.compare_self
    rw [hab, hself] at h
    cases h

theorem size_le (h : ∀ x ∈ s, x ∈ t) : s.size ≤ t.size :=
  (List.subperm_of_subset s.nodup h).length_le

variable [TransOrd α]

/-- Sets with the same elements are equal. -/
theorem eq_of_mem_iff (h : ∀ x, x ∈ s ↔ x ∈ t) : s = t := by
  have hperm := (List.perm_ext_iff_of_nodup s.nodup t.nodup).mpr h
  have hlist : s.toList = t.toList := hperm.eq_of_pairwise (fun a b _ _ hab hba => by
    have hswap : compare a b = (compare b a).swap := OrientedCmp.eq_swap
    rw [hswap, hba] at hab
    cases hab) s.ascending t.ascending
  cases s
  cases t
  cases hlist
  rfl

/-- A set with all elements of another and a different one at that is larger. -/
theorem size_lt (h : ∀ x ∈ s, x ∈ t) (hne : s ≠ t) : s.size < t.size := by
  refine Nat.lt_of_le_of_ne (size_le h) fun hsize => hne (eq_of_mem_iff fun x => ⟨h x, ?_⟩)
  have hperm := (List.subperm_of_subset s.nodup h).perm_of_length_le (Nat.le_of_eq hsize.symm)
  exact hperm.mem_iff.mpr

end FactSet

namespace FlowProblem

section Travel

variable {α κ : Type} [Ord α] (p : FlowProblem α κ) (g : FlowGraph)

/-- Facts go straight from one step to another. -/
def Feeds (k n : Nat) : Prop :=
  if p.backward then k ∈ g.successors n else n ∈ g.successors k

/-- A fact arrives at a step. -/
inductive Arrives (x : α) : Nat → Prop
  | initial {n : Nat} : p.isBoundary g n = true → x ∈ p.initial → Arrives x n
  | generated {k n : Nat} : p.Feeds g k n → x ∈ p.generates k → Arrives x n
  | passed {k n : Nat} : p.Feeds g k n → p.subject x ∉ p.kills k → Arrives x k → Arrives x n

/-- A fact leaves a step. -/
def Leaves (x : α) (n : Nat) : Prop :=
  (p.Arrives g x n ∧ p.subject x ∉ p.kills n) ∨ x ∈ p.generates n

end Travel

variable {α κ : Type} [Ord α] {p : FlowProblem α κ} {g : FlowGraph} {n k m : Nat} {x : α}

/-- Facts arrive at a step over an edge, or from outside at a boundary. -/
theorem arrives_iff : p.Arrives g x n ↔
    (∃ k, p.Feeds g k n ∧ p.Leaves g x k) ∨ (p.isBoundary g n = true ∧ x ∈ p.initial) := by
  constructor
  · rintro (⟨hboundary, hx⟩ | ⟨hfeeds, hx⟩ | ⟨hfeeds, hpass, hx⟩)
    · exact .inr ⟨hboundary, hx⟩
    · exact .inl ⟨_, hfeeds, .inr hx⟩
    · exact .inl ⟨_, hfeeds, .inl ⟨hx, hpass⟩⟩
  · rintro (⟨k, hfeeds, ⟨hx, hpass⟩ | hx⟩ | ⟨hboundary, hx⟩)
    · exact .passed hfeeds hpass hx
    · exact .generated hfeeds hx
    · exact .initial hboundary hx

/-! ## Neighbours -/

/-- Facts come from nodes of the graph. -/
theorem Feeds.source_mem (h : p.Feeds g k n) (hg : g.Closed) : k ∈ g.nodes := by
  rw [Feeds] at h
  split at h
  · exact hg.target_mem h
  · exact hg.source_mem h

/-- Facts go to nodes of the graph. -/
theorem Feeds.target_mem (h : p.Feeds g k n) (hg : g.Closed) : n ∈ g.nodes := by
  rw [Feeds] at h
  split at h
  · exact hg.source_mem h
  · exact hg.target_mem h

/-- A node is a predecessor of its successors and of no others. -/
theorem mem_predecessors (hg : g.Closed) : k ∈ g.predecessors n ↔ n ∈ g.successors k := by
  simp only [FlowGraph.predecessors, FlowGraph.sourcesOf, FlowGraph.edges, List.mem_map,
    List.mem_filter, List.mem_flatMap, beq_iff_eq, Prod.exists]
  constructor
  · rintro ⟨_, _, ⟨⟨_, _, _, hm, h⟩, rfl⟩, rfl⟩
    obtain ⟨rfl, rfl⟩ := Prod.mk.inj h
    exact hm
  · exact fun h => ⟨k, n, ⟨⟨k, hg.source_mem h, n, h, rfl⟩, rfl⟩, rfl⟩

/-- The sources of a step are where facts come from. -/
theorem mem_sources (hg : g.Closed) : k ∈ p.sources g g.transposed n ↔ p.Feeds g k n := by
  rw [sources, Feeds]
  split
  · rfl
  · rw [FlowGraph.successors_transposed, mem_predecessors hg]

/-- The targets of a step are where facts go to. -/
theorem mem_targets (hg : g.Closed) : n ∈ p.targets g g.transposed k ↔ p.Feeds g k n := by
  rw [targets, Feeds]
  split
  · rw [FlowGraph.successors_transposed, mem_predecessors hg]
  · rfl

/-- An edge counts once among the targets of the steps. -/
theorem sum_targets (hg : g.Closed) :
    (g.nodes.map fun n => (p.targets g g.transposed n).length).sum = g.edgeCount := by
  by_cases h : p.backward = true
  · -- Every edge is counted at its target.
    have hcount : ∀ n, (p.targets g g.transposed n).length = (g.edges.map Prod.snd).count n := by
      intro n
      rw [targets, if_pos h, FlowGraph.successors_transposed, FlowGraph.predecessors,
        FlowGraph.sourcesOf, List.length_map, ← List.countP_eq_length_filter, List.count,
        List.countP_map]
      rfl
    have hmem : ∀ n ∈ (g.edges.map Prod.snd : Multiset Nat), n ∈ g.nodes.toFinset := by
      intro n hn
      simp only [FlowGraph.edges, Multiset.mem_coe, List.mem_map, List.mem_flatMap] at hn
      obtain ⟨_, ⟨_, _, m, hm, rfl⟩, rfl⟩ := hn
      exact List.mem_toFinset.mpr (hg.target_mem hm)
    have hsum := Multiset.sum_count_eq_card hmem
    simp only [Multiset.coe_count, Multiset.coe_card, List.length_map] at hsum
    rw [List.sum_toFinset _ hg.nodup] at hsum
    simp only [hcount]
    exact hsum
  · simp [targets, h, FlowGraph.edgeCount, FlowGraph.edges, List.length_flatMap]

/-- The first queue holds every node of a closed graph once. -/
theorem perm_firstQueue (p : FlowProblem α κ) (hg : g.Closed) : (p.firstQueue g).Perm g.nodes := by
  rw [firstQueue]
  split
  · exact ((List.reverse_perm _).append_right _).trans hg.perm_finished
  · exact hg.perm_finished

/-! ## The state of the work -/

/-- The facts that have come to leave a step. -/
def Work.left (w : Work α) (n : Nat) : FactSet α := (w.leaving[n]?).getD .empty

/-- What has come to leave a step is what its table says. -/
theorem Work.mem_left {w : Work α} : x ∈ w.left n ↔ ∃ s, w.leaving[n]? = some s ∧ x ∈ s := by
  rw [left]
  cases w.leaving[n]? with
  | none => simp [FactSet.not_mem_empty]
  | some s => simp

/-- Nothing has left a step when the work starts. -/
theorem left_start (hbottom : p.bottom = .empty) : (p.start g).left n = .empty := by
  rw [Work.left, start]
  dsimp only
  rw [Table.getElem?_tabulate, hbottom]
  split <;> rfl

/-- A queue gets the steps that are put in and loses none. -/
theorem mem_enqueue {queue steps : List Nat} :
    n ∈ enqueue queue steps ↔ n ∈ queue ∨ n ∈ steps := by
  rw [enqueue]
  induction steps generalizing queue with
  | nil => simp
  | cons m steps ih =>
      rw [List.foldl_cons, ih, List.mem_cons]
      split
      · rename_i hm
        rw [List.contains_iff_mem] at hm
        constructor
        · rintro (h | h)
          · exact .inl h
          · exact .inr (.inr h)
        · rintro (h | rfl | h)
          · exact .inl h
          · exact .inl hm
          · exact .inr h
      · rw [List.mem_append, List.mem_singleton, or_assoc]

/-- A queue gets no longer than by the steps that are put in. -/
theorem length_enqueue_le (queue steps : List Nat) :
    (enqueue queue steps).length ≤ queue.length + steps.length := by
  rw [enqueue]
  induction steps generalizing queue with
  | nil => simp
  | cons m steps ih =>
      rw [List.foldl_cons, List.length_cons]
      refine Nat.le_trans (ih _) ?_
      split
      · omega
      · rw [List.length_append, List.length_singleton]
        omega

variable [TransOrd α] [LawfulEqOrd α] {w : Work α} {rest : List Nat}

/-- Every fact that leaves a step of a closed graph is among those that can occur. -/
theorem Leaves.mem_allFacts (hg : g.Closed) (hn : n ∈ g.nodes) (h : p.Leaves g x n) :
    x ∈ p.allFacts g := by
  have hgenerates : ∀ {k}, k ∈ g.nodes → x ∈ p.generates k → x ∈ p.allFacts g := fun {k} hk hx =>
    FactSet.mem_unions.mpr ⟨_, List.mem_cons_of_mem _ (List.mem_cons_of_mem _
      (List.mem_map_of_mem ((p.perm_firstQueue hg).mem_iff.mpr hk))), hx⟩
  have harrives : ∀ {k}, p.Arrives g x k → x ∈ p.allFacts g := by
    intro k hx
    induction hx with
    | initial _ hx => exact FactSet.mem_unions.mpr ⟨_, List.mem_cons_self, hx⟩
    | generated hfeeds hx => exact hgenerates (hfeeds.source_mem hg) hx
    | passed _ _ _ ih => exact ih
  exact h.elim (fun h => harrives h.1) (hgenerates hn)

/-- What arrives at a step depends only on what leaves the steps it comes from. -/
theorem arrivals_congr {w' : Work α} (hg : g.Closed)
    (h : ∀ k, p.Feeds g k n → w'.leaving[k]? = w.leaving[k]?) :
    p.arrivals g g.transposed w' n = p.arrivals g g.transposed w n := by
  have hincoming : (p.sources g g.transposed n).filterMap (w'.leaving[·]?) =
      (p.sources g g.transposed n).filterMap (w.leaving[·]?) :=
    List.filterMap_congr fun k hk => h k ((mem_sources hg).mp hk)
  rw [arrivals, arrivals, hincoming]

/-- What arrives at a step has left the steps before it or is initial. -/
theorem mem_arrivals (hg : g.Closed) (hbottom : p.bottom = .empty) :
    x ∈ p.arrivals g g.transposed w n ↔
      (∃ k, p.Feeds g k n ∧ x ∈ w.left k) ∨ (p.isBoundary g n = true ∧ x ∈ p.initial) := by
  have hunions : x ∈ p.arrivals g g.transposed w n ↔
      ∃ s ∈ (p.sources g g.transposed n).filterMap (w.leaving[·]?) ++
        if p.isBoundary g n then [p.initial] else [], x ∈ s := by
    rw [arrivals, hbottom]
    generalize (p.sources g g.transposed n).filterMap (w.leaving[·]?) ++
      (if p.isBoundary g n then [p.initial] else []) = incoming
    split
    · rename_i hnone
      rw [List.isEmpty_iff.mp hnone]
      simp [FactSet.not_mem_empty]
    · exact FactSet.mem_unions
  rw [hunions]
  simp only [List.mem_append, List.mem_filterMap, or_and_right, exists_or, mem_sources hg,
    Work.mem_left]
  refine or_congr ⟨?_, ?_⟩ ?_
  · rintro ⟨s, ⟨k, hk, hs⟩, hx⟩
    exact ⟨k, hk, s, hs, hx⟩
  · rintro ⟨k, hk, s, hs, hx⟩
    exact ⟨s, ⟨k, hk, hs⟩, hx⟩
  · split
    · rename_i hboundary
      simp [hboundary]
    · rename_i hboundary
      simp [hboundary]

/-! ## What remains to be done -/

/-- The facts that can still come to leave a step, once for every edge on which they travel. -/
def capacity (p : FlowProblem α κ) (g : FlowGraph) (w : Work α) (n : Nat) : Nat :=
  (p.targets g g.transposed n).length * ((p.allFacts g).size - (w.left n).size)

/-- A bound on the visits that are still to be made. -/
def remaining (p : FlowProblem α κ) (g : FlowGraph) (w : Work α) : Nat :=
  w.queue.length + (g.nodes.map (p.capacity g w)).sum

/-- What remains at the beginning is the bound on the visits. -/
theorem remaining_start (hg : g.Closed) (hbottom : p.bottom = .empty) :
    p.remaining g (p.start g) = p.visitBound g := by
  have hcapacity : ∀ n, p.capacity g (p.start g) n =
      (p.targets g g.transposed n).length * (p.allFacts g).size := by
    intro n
    rw [capacity, left_start hbottom]
    rfl
  rw [remaining, visitBound, ← sum_targets (p := p) hg, ← List.sum_map_mul_right,
    funext hcapacity]
  rfl

/-! ## The invariant -/

variable [DecidableEq κ]

/-- What leaves a step after its visit. -/
def outcome (p : FlowProblem α κ) (g : FlowGraph) (w : Work α) (n : Nat) : FactSet α :=
  p.transfer n (p.arrivals g g.transposed w n)

/-- **What leaves a step** after its visit has arrived and is not killed, or is generated there. -/
theorem mem_outcome (hg : g.Closed) (hbottom : p.bottom = .empty) : x ∈ p.outcome g w n ↔
    (((∃ k, p.Feeds g k n ∧ x ∈ w.left k) ∨ (p.isBoundary g n = true ∧ x ∈ p.initial)) ∧
      p.subject x ∉ p.kills n) ∨ x ∈ p.generates n := by
  rw [outcome, mem_transfer, mem_arrivals hg hbottom]

/-- More facts leave a step if more facts leave the steps before it. -/
theorem outcome_mono {w' : Work α} (hg : g.Closed) (hbottom : p.bottom = .empty)
    (h : ∀ k, ∀ x ∈ w.left k, x ∈ w'.left k) : ∀ x ∈ p.outcome g w n, x ∈ p.outcome g w' n := by
  intro x hx
  rw [mem_outcome hg hbottom] at hx ⊢
  refine hx.imp_left (And.imp_left (Or.imp_left ?_))
  rintro ⟨k, hfeeds, hx⟩
  exact ⟨k, hfeeds, h k x hx⟩

/-- What stays so while the work goes on. -/
structure Invariant (p : FlowProblem α κ) (g : FlowGraph) (w : Work α) : Prop where
  entered : ∀ n ∈ g.nodes, ∃ s, w.leaving[n]? = some s
  queued : ∀ n ∈ w.queue, n ∈ g.nodes
  /-- The facts that have come to leave a step do leave it. -/
  sound : ∀ n, ∀ x ∈ w.left n, p.Leaves g x n
  /-- A visit takes no facts away. -/
  rising : ∀ n, ∀ x ∈ w.left n, x ∈ p.outcome g w n
  /-- A step that does not wait for a visit needs none. -/
  settled : ∀ n ∈ g.nodes, n ∉ w.queue →
    w.arriving[n]? = some (p.arrivals g g.transposed w n) ∧ w.leaving[n]? = some (p.outcome g w n)

/-- What a visit lets leave a step does leave it. -/
theorem Invariant.leaves (h : Invariant p g w) (hg : g.Closed) (hbottom : p.bottom = .empty)
    (hx : x ∈ p.outcome g w n) : p.Leaves g x n := by
  rcases (mem_outcome hg hbottom).mp hx with ⟨harrived, hpass⟩ | hx
  · have harrives := harrived.imp_left (Exists.imp fun k => And.imp_right (h.sound k x))
    exact .inl ⟨arrives_iff.mpr harrives, hpass⟩
  · exact .inr hx

/-- The invariant holds when the work starts. -/
theorem invariant_start (hg : g.Closed) (hbottom : p.bottom = .empty) :
    Invariant p g (p.start g) := by
  have hqueue : ∀ n, n ∈ (p.start g).queue ↔ n ∈ g.nodes := fun n =>
    (p.perm_firstQueue hg).mem_iff
  have hleft : ∀ n, ∀ x, x ∉ (p.start g).left n := fun n x hx =>
    FactSet.not_mem_empty (left_start hbottom ▸ hx)
  refine ⟨fun n hn => ⟨p.bottom, ?_⟩, fun n => (hqueue n).mp, fun n x hx => absurd hx (hleft n x),
    fun n x hx => absurd hx (hleft n x), fun n hn hdone => absurd ((hqueue n).mpr hn) hdone⟩
  rw [start]
  dsimp only
  rw [Table.getElem?_tabulate, if_pos hn]

/-- When the queue is empty, everything that can arrive at a step has arrived. -/
theorem Invariant.mem_arrivals_iff (h : Invariant p g w) (hg : g.Closed)
    (hbottom : p.bottom = .empty) (hqueue : w.queue = []) :
    x ∈ p.arrivals g g.transposed w n ↔ p.Arrives g x n := by
  have hleaving : ∀ {k n}, p.Feeds g k n → w.leaving[k]? = some (p.outcome g w k) := fun hfeeds =>
    (h.settled _ (hfeeds.source_mem hg) (by simp [hqueue])).2
  rw [mem_arrivals hg hbottom]
  constructor
  · rw [arrives_iff]
    exact Or.imp_left (Exists.imp fun k => And.imp_right (h.sound k x))
  · intro hx
    induction hx with
    | initial hboundary hx => exact .inr ⟨hboundary, hx⟩
    | generated hfeeds hx =>
        refine .inl ⟨_, hfeeds, Work.mem_left.mpr ⟨_, hleaving hfeeds, ?_⟩⟩
        exact (mem_outcome hg hbottom).mpr (.inr hx)
    | passed hfeeds hpass _ ih =>
        refine .inl ⟨_, hfeeds, Work.mem_left.mpr ⟨_, hleaving hfeeds, ?_⟩⟩
        exact (mem_outcome hg hbottom).mpr (.inl ⟨ih, hpass⟩)

/-! ## One visit -/

variable [DecidableEq α]

section Visit

variable (p g w n rest)

/-- A visit writes what arrives at its step. -/
theorem arriving_visit : (p.visit g g.transposed w n rest).arriving =
    w.arriving.insert n (p.arrivals g g.transposed w n) := by
  rw [visit]
  split <;> rfl

/-- A visit is counted. -/
theorem visits_visit : (p.visit g g.transposed w n rest).visits = w.visits + 1 := by
  rw [visit]
  split <;> rfl

/-- A visit writes what leaves its step and nothing else. -/
theorem getElem?_leaving_visit : (p.visit g g.transposed w n rest).leaving[m]? =
    if n = m then some (p.outcome g w n) else w.leaving[m]? := by
  rw [visit]
  split
  · rename_i hsame
    split
    · rename_i hnm
      exact hnm ▸ hsame
    · rfl
  · rw [Std.TreeMap.getElem?_insert]
    simp only [Std.LawfulEqCmp.compare_eq_iff_eq]
    rfl

/-- A visit changes what has come to leave its step only. -/
theorem left_visit : (p.visit g g.transposed w n rest).left m =
    if n = m then p.outcome g w n else w.left m := by
  rw [Work.left, getElem?_leaving_visit]
  split <;> rfl

/-- A visit after which other facts leave the step puts the steps after it into the queue. -/
theorem queue_visit : (p.visit g g.transposed w n rest).queue =
    if w.leaving[n]? = some (p.outcome g w n) then rest
    else enqueue rest (p.targets g g.transposed n) := by
  rw [visit]
  exact apply_ite Work.queue _ _ _

end Visit

namespace Invariant

/-- What has come to leave a step is never taken back by a visit. -/
theorem left_le_visit (h : Invariant p g w) :
    ∀ k, ∀ x ∈ w.left k, x ∈ (p.visit g g.transposed w n rest).left k := by
  intro k x hx
  rw [left_visit]
  split
  · rename_i hnk
    exact h.rising n x (hnk ▸ hx)
  · exact hx

/-- **A visit keeps the invariant.** -/
theorem visit (h : Invariant p g w) (hg : g.Closed) (hbottom : p.bottom = .empty)
    (hqueue : w.queue = n :: rest) : Invariant p g (p.visit g g.transposed w n rest) := by
  have hn : n ∈ g.nodes := h.queued n (hqueue ▸ List.mem_cons_self)
  have hrest : ∀ m ∈ rest, m ∈ g.nodes := fun m hm => h.queued m (hqueue ▸ List.mem_cons_of_mem _ hm)
  refine ⟨fun m hm => ?_, fun m hm => ?_, fun m x hx => ?_, fun m x hx => ?_, fun m hm hdone => ?_⟩
  · rw [getElem?_leaving_visit]
    split
    · exact ⟨_, rfl⟩
    · exact h.entered m hm
  · rw [queue_visit] at hm
    split at hm
    · exact hrest m hm
    · rcases mem_enqueue.mp hm with hm | hm
      · exact hrest m hm
      · exact ((mem_targets hg).mp hm).target_mem hg
  · rw [left_visit] at hx
    split at hx
    · rename_i hnm
      subst hnm
      exact h.leaves hg hbottom hx
    · exact h.sound m x hx
  · rw [left_visit] at hx
    refine outcome_mono hg hbottom h.left_le_visit x ?_
    split at hx
    · rename_i hnm
      exact hnm ▸ hx
    · exact h.rising m x hx
  · -- Nothing new arrives at a step that does not wait: otherwise the visit would queue it.
    have hsame : p.arrivals g g.transposed (p.visit g g.transposed w n rest) m =
        p.arrivals g g.transposed w m := by
      refine arrivals_congr hg fun k hfeeds => ?_
      rw [getElem?_leaving_visit]
      split
      · rename_i hnk
        subst hnk
        by_contra hchanged
        rw [queue_visit, if_neg fun h => hchanged h.symm, mem_enqueue, not_or] at hdone
        exact hdone.2 ((mem_targets hg).mpr hfeeds)
      · rfl
    have hnew : m ∉ rest := by
      intro hm
      rw [queue_visit] at hdone
      split at hdone
      · exact hdone hm
      · exact hdone (mem_enqueue.mpr (.inl hm))
    rw [outcome, hsame, arriving_visit, getElem?_leaving_visit, Std.TreeMap.getElem?_insert]
    simp only [Std.LawfulEqCmp.compare_eq_iff_eq]
    by_cases hnm : n = m
    · rw [if_pos hnm, if_pos hnm, hnm]
      exact ⟨rfl, rfl⟩
    · rw [if_neg hnm, if_neg hnm]
      exact h.settled m hm (by simp [hqueue, Ne.symm hnm, hnew])

end Invariant

/-! ## The whole work -/

/-- **A visit lowers what remains.** -/
theorem Invariant.remaining_visit_lt (h : Invariant p g w) (hg : g.Closed)
    (hbottom : p.bottom = .empty) (hqueue : w.queue = n :: rest) :
    p.remaining g (p.visit g g.transposed w n rest) < p.remaining g w := by
  have hn : n ∈ g.nodes := h.queued n (hqueue ▸ List.mem_cons_self)
  have hother : ∀ m ∈ g.nodes.erase n,
      p.capacity g (p.visit g g.transposed w n rest) m = p.capacity g w m := by
    intro m hm
    rw [capacity, left_visit, if_neg (hg.nodup.mem_erase_iff.mp hm).1.symm, capacity]
  rw [remaining, remaining, ← List.sum_map_erase _ hn, ← List.sum_map_erase (p.capacity g w) hn,
    List.map_congr_left hother, hqueue, List.length_cons, queue_visit]
  have hafter : p.capacity g (p.visit g g.transposed w n rest) n =
      (p.targets g g.transposed n).length * ((p.allFacts g).size - (p.outcome g w n).size) := by
    rw [capacity, left_visit, if_pos rfl]
  obtain ⟨s, hs⟩ := h.entered n hn
  have hleft : w.left n = s := by rw [Work.left, hs, Option.getD_some]
  split
  · rename_i hsame
    rw [hs, Option.some.injEq] at hsame
    rw [hafter, capacity, hleft, hsame]
    omega
  · rename_i hchanged
    have hne : w.left n ≠ p.outcome g w n := fun heq => hchanged (by rw [hs, ← hleft, heq])
    have hgrown : (w.left n).size < (p.outcome g w n).size := FactSet.size_lt (h.rising n) hne
    have hmost : (p.outcome g w n).size ≤ (p.allFacts g).size :=
      FactSet.size_le fun x hx => (h.leaves hg hbottom hx).mem_allFacts hg hn
    have hqueued := length_enqueue_le rest (p.targets g g.transposed n)
    -- A fact that is new here will not be new here again.
    have hfall : p.capacity g (p.visit g g.transposed w n rest) n +
        (p.targets g g.transposed n).length ≤ p.capacity g w n := by
      rw [hafter, capacity, ← Nat.mul_succ]
      exact Nat.mul_le_mul_left _ (by omega)
    omega

/-- **Work within its bound empties the queue** and keeps the invariant. -/
theorem Invariant.work {bound : Nat} (h : Invariant p g w) (hg : g.Closed)
    (hbottom : p.bottom = .empty) (hbound : p.remaining g w ≤ bound) :
    Invariant p g (p.work g g.transposed bound w) ∧ (p.work g g.transposed bound w).queue = [] := by
  induction bound generalizing w with
  | zero =>
      rw [FlowProblem.work]
      rw [remaining] at hbound
      exact ⟨h, List.length_eq_zero_iff.mp (by omega)⟩
  | succ bound ih =>
      rw [FlowProblem.work]
      split
      · rename_i hqueue
        exact ⟨h, hqueue⟩
      · rename_i n rest hqueue
        have hless := h.remaining_visit_lt hg hbottom hqueue
        exact ih (h.visit hg hbottom hqueue) (by omega)

/-- The work makes no more visits than its bound. -/
theorem visits_work_le (bound : Nat) (w : Work α) :
    (p.work g g.transposed bound w).visits ≤ w.visits + bound := by
  induction bound generalizing w with
  | zero => exact Nat.le_refl _
  | succ bound ih =>
      rw [FlowProblem.work]
      split
      · exact Nat.le_add_right _ _
      · refine Nat.le_trans (ih _) ?_
        rw [visits_visit]
        omega

/-- The bound on the visits is kept. -/
theorem visits_solve_le (p : FlowProblem α κ) (g : FlowGraph) :
    (p.solve g).visits ≤ p.visitBound g := by
  have hvisits := visits_work_le (p := p) (g := g) (p.visitBound g) (p.start g)
  rw [show (p.start g).visits = 0 from rfl, Nat.zero_add] at hvisits
  rw [solve]
  split <;> exact hvisits

/-- **The tables at the end** hold, for every step, just the facts that arrive and leave. -/
theorem exists_finish (hg : g.Closed) (hbottom : p.bottom = .empty) (hn : n ∈ g.nodes) :
    ∃ into out, (p.finish g).arriving[n]? = some into ∧ (p.finish g).leaving[n]? = some out ∧
      (∀ x, x ∈ into ↔ p.Arrives g x n) ∧ ∀ x, x ∈ out ↔ p.Leaves g x n := by
  obtain ⟨hinv, hqueue⟩ := (invariant_start hg hbottom).work hg hbottom
    (Nat.le_of_eq (remaining_start hg hbottom))
  obtain ⟨harriving, hleaving⟩ := hinv.settled n hn (by simp [hqueue])
  have hinto := fun x => hinv.mem_arrivals_iff (x := x) (n := n) hg hbottom hqueue
  refine ⟨_, _, harriving, hleaving, hinto, fun x => ?_⟩
  rw [outcome, mem_transfer, hinto, Leaves]

end FlowProblem

end SharpMutants
