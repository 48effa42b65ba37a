import SharpMutants.Dataflow.MethodFlow
import SharpMutants.Proofs.Dataflow.Fixpoint
import SharpMutants.Proofs.MethodGraph

/-!
# Reaching definitions and live uses along paths

A definition reaches a step if a path leads there from a step that makes it, past steps
that do not define the variable anew; a use is live after a step if such a path leads to
it.  Such a path links the two steps (`FlowGraph.Links`).  The travels of the facts of the
two problems are these paths (`arrives_forward_iff`, `arrives_backward_iff`), so the
tables of every analysis (`MethodFlow.IsAnalysis`) hold just the definitions that reach
the steps of its method and the uses that are live there: `reachingDefinitions_iff_path`,
`liveUses_iff_path`.
-/

namespace SharpMutants

open Std

namespace FlowGraph

variable {g : FlowGraph} {a b k : Nat} {between : List Nat}

/-- A path of at least one edge leads from one step to another, past the steps in between. -/
def Leads (g : FlowGraph) (a : Nat) (between : List Nat) (b : Nat) : Prop :=
  List.IsChain (fun n m => m ∈ g.successors n) (a :: between ++ [b])

theorem leads_nil : g.Leads a [] b ↔ b ∈ g.successors a := by
  simp [Leads]

theorem leads_cons : g.Leads a (k :: between) b ↔ k ∈ g.successors a ∧ g.Leads k between b := by
  simp [Leads]

/-- A path goes over its last node between. -/
theorem leads_concat :
    g.Leads a (between ++ [k]) b ↔ g.Leads a between k ∧ b ∈ g.successors k := by
  induction between generalizing a with
  | nil => simp only [List.nil_append, leads_cons, leads_nil]
  | cons n between ih => simp only [List.cons_append, leads_cons, ih, and_assoc]

/-- All steps of a path are in the graph. -/
theorem Leads.mem_nodes (h : g.Leads a between b) (hg : g.Closed) :
    ∀ n, n = a ∨ n ∈ between ∨ n = b → n ∈ g.nodes := by
  induction between generalizing a with
  | nil =>
      have hedge := leads_nil.mp h
      rintro n (rfl | hn | rfl)
      · exact hg.source_mem hedge
      · cases hn
      · exact hg.target_mem hedge
  | cons k between ih =>
      obtain ⟨hedge, h⟩ := leads_cons.mp h
      rintro n (rfl | hn | rfl)
      · exact hg.source_mem hedge
      · exact ih h n (by simpa [or_assoc] using Or.inl (b := n = b) (List.mem_cons.mp hn))
      · exact ih h n (.inr (.inr rfl))

end FlowGraph

namespace FlowProblem

variable {α κ : Type} [Ord α] {p : FlowProblem α κ} {g : FlowGraph} {n : Nat} {x : α}

/-- **Facts that flow forward** arrive along the paths to a step. -/
theorem arrives_forward_iff (hforward : p.backward = false) (hinitial : p.initial = .empty) :
    p.Arrives g x n ↔ ∃ s between, x ∈ p.generates s ∧ g.Leads s between n ∧
      ∀ k ∈ between, p.subject x ∉ p.kills k := by
  have hfeeds : ∀ {k n}, p.Feeds g k n ↔ n ∈ g.successors k := by simp [Feeds, hforward]
  constructor
  · intro h
    induction h with
    | initial _ hx => exact absurd (hinitial ▸ hx) FactSet.not_mem_empty
    | generated hstep hx => exact ⟨_, [], hx, FlowGraph.leads_nil.mpr (hfeeds.mp hstep), by simp⟩
    | @passed k n hstep hpass _ ih =>
        obtain ⟨s, between, hx, hpath, hclear⟩ := ih
        refine ⟨s, between ++ [k], hx, FlowGraph.leads_concat.mpr ⟨hpath, hfeeds.mp hstep⟩, ?_⟩
        exact List.forall_mem_append.mpr ⟨hclear, List.forall_mem_singleton.mpr hpass⟩
  · rintro ⟨s, between, hx, hpath, hclear⟩
    -- The last edge of the path is the last step of the travel.
    induction between using List.reverseRecOn generalizing n with
    | nil => exact .generated (hfeeds.mpr (FlowGraph.leads_nil.mp hpath)) hx
    | append_singleton between k ih =>
        obtain ⟨hpath, hstep⟩ := FlowGraph.leads_concat.mp hpath
        obtain ⟨hclear, hpass⟩ := List.forall_mem_append.mp hclear
        exact .passed (hfeeds.mpr hstep) (hpass k (List.mem_singleton_self k)) (ih hpath hclear)

/-- **Facts that flow backward** arrive along the paths from a step. -/
theorem arrives_backward_iff (hbackward : p.backward = true) (hinitial : p.initial = .empty) :
    p.Arrives g x n ↔ ∃ m between, x ∈ p.generates m ∧ g.Leads n between m ∧
      ∀ k ∈ between, p.subject x ∉ p.kills k := by
  have hfeeds : ∀ {k n}, p.Feeds g k n ↔ k ∈ g.successors n := by simp [Feeds, hbackward]
  constructor
  · intro h
    induction h with
    | initial _ hx => exact absurd (hinitial ▸ hx) FactSet.not_mem_empty
    | generated hstep hx => exact ⟨_, [], hx, FlowGraph.leads_nil.mpr (hfeeds.mp hstep), by simp⟩
    | @passed k n hstep hpass _ ih =>
        obtain ⟨m, between, hx, hpath, hclear⟩ := ih
        refine ⟨m, k :: between, hx, FlowGraph.leads_cons.mpr ⟨hfeeds.mp hstep, hpath⟩, ?_⟩
        exact List.forall_mem_cons.mpr ⟨hpass, hclear⟩
  · rintro ⟨m, between, hx, hpath, hclear⟩
    -- The first edge of the path is the last step of the travel.
    induction between generalizing n with
    | nil => exact .generated (hfeeds.mpr (FlowGraph.leads_nil.mp hpath)) hx
    | cons k between ih =>
        obtain ⟨hstep, hpath⟩ := FlowGraph.leads_cons.mp hpath
        obtain ⟨hpass, hclear⟩ := List.forall_mem_cons.mp hclear
        exact .passed (hfeeds.mpr hstep) hpass (ih hpath hclear)

end FlowProblem

/-! ## Definitions and uses -/

/-- A step defines a variable. -/
def Arena.Defines (a : Arena) (step : Nat) (name : String) : Prop :=
  ∃ y ∈ a.definitionsAt step, y.name = name

/-- A path leads from one step to another, past no step that defines a variable. -/
def FlowGraph.Links (g : FlowGraph) (a : Arena) (name : String) (n m : Nat) : Prop :=
  ∃ between, g.Leads n between m ∧ ∀ k ∈ between, ¬a.Defines k name

namespace Variables

variable {a : Arena} {g : FlowGraph} {n m k s : Nat} {between : List Nat} {x : Fact}

/-- The table of the nodes of a graph gives the facts of each. -/
theorem factsAt_tabulate {f : Nat → Facts} (hn : n ∈ g.nodes) :
    factsAt (Table.tabulate g.nodes f) n = f n := by
  rw [factsAt, Table.getElem?_tabulate, if_pos hn, Option.getD_some]

/-- The facts at a node are those that its table was made with. -/
theorem mem_factsAt {f : Nat → Facts} (hn : n ∈ g.nodes) :
    x ∈ factsAt (Table.tabulate g.nodes f) n ↔ x ∈ f n := by
  rw [factsAt_tabulate hn]

/-- A step ends the facts about the variables that it defines. -/
theorem mem_namesDefined (hn : n ∈ g.nodes) :
    x.name ∈ namesDefined (Table.tabulate g.nodes a.definitionsAt) n ↔ a.Defines n x.name := by
  rw [namesDefined, factsAt_tabulate hn, List.mem_map]
  rfl

/-- Along a path, the tables of a method say what its steps do. -/
theorem tabulated_iff_of_ends {f : Nat → Facts} (hg : g.Closed) (hs : s = n ∨ s = m) :
    (x ∈ factsAt (Table.tabulate g.nodes f) s ∧ g.Leads n between m ∧
        ∀ k ∈ between, x.name ∉ namesDefined (Table.tabulate g.nodes a.definitionsAt) k) ↔
      x ∈ f s ∧ g.Leads n between m ∧ ∀ k ∈ between, ¬a.Defines k x.name := by
  rw [and_left_comm, and_left_comm (b := g.Leads n between m)]
  refine and_congr_right fun hpath => and_congr ?_ (forall₂_congr fun k hk => not_congr ?_)
  · exact mem_factsAt (hpath.mem_nodes hg s (hs.imp_right .inr))
  · exact mem_namesDefined (hpath.mem_nodes hg k (.inr (.inl hk)))

/-- **A definition arrives at a step** if a path from its site leads there without a definition
of the same name between. -/
theorem reaching_arrives_iff (hg : g.Closed) :
    (reachingProblem (Table.tabulate g.nodes a.definitionsAt)).Arrives g x n ↔
      ∃ s between, x ∈ a.definitionsAt s ∧ g.Leads s between n ∧
        ∀ k ∈ between, ¬a.Defines k x.name := by
  rw [FlowProblem.arrives_forward_iff rfl rfl]
  exact exists_congr fun s => exists_congr fun between => tabulated_iff_of_ends hg (.inl rfl)

/-- A definition leaves a step that makes it, or that it arrives at and that defines no such
name. -/
theorem reaching_leaves_iff (hn : n ∈ g.nodes) :
    (reachingProblem (Table.tabulate g.nodes a.definitionsAt)).Leaves g x n ↔
      x ∈ a.definitionsAt n ∨
        (reachingProblem (Table.tabulate g.nodes a.definitionsAt)).Arrives g x n ∧
          ¬a.Defines n x.name := by
  rw [FlowProblem.Leaves, or_comm]
  exact or_congr (mem_factsAt hn) (and_congr_right fun _ => not_congr (mem_namesDefined hn))

/-- **A use arrives at a step**, backwards, if a path leads to it without a definition of the
same name between. -/
theorem liveness_arrives_iff {conditionUses : Bool} (hg : g.Closed) :
    (livenessProblem (Table.tabulate g.nodes a.definitionsAt)
        (Table.tabulate g.nodes (a.usesAt conditionUses))).Arrives g x n ↔
      ∃ m between, x ∈ a.usesAt conditionUses m ∧ g.Leads n between m ∧
        ∀ k ∈ between, ¬a.Defines k x.name := by
  rw [FlowProblem.arrives_backward_iff rfl rfl]
  exact exists_congr fun m => exists_congr fun between => tabulated_iff_of_ends hg (.inr rfl)

/-- A use leaves a step, backwards, that makes it, or that it arrives at and that defines no such
name. -/
theorem liveness_leaves_iff {conditionUses : Bool} (hn : n ∈ g.nodes) :
    (livenessProblem (Table.tabulate g.nodes a.definitionsAt)
        (Table.tabulate g.nodes (a.usesAt conditionUses))).Leaves g x n ↔
      x ∈ a.usesAt conditionUses n ∨
        (livenessProblem (Table.tabulate g.nodes a.definitionsAt)
          (Table.tabulate g.nodes (a.usesAt conditionUses))).Arrives g x n ∧
          ¬a.Defines n x.name := by
  rw [FlowProblem.Leaves, or_comm]
  exact or_congr (mem_factsAt hn) (and_congr_right fun _ => not_congr (mem_namesDefined hn))

end Variables

namespace MethodFlow

/-- The analysis of a method that has a graph. -/
theorem exists_analyze {a : Arena} {m : Nat} {g : FlowGraph} (h : a.methodGraph m = .ok g)
    (conditionUses : Bool) : ∃ flow, analyze a conditionUses m = .ok flow ∧ flow.graph = g ∧
      flow.reaching =
        (Variables.reachingProblem (Table.tabulate g.nodes a.definitionsAt)).solve g ∧
      flow.liveness =
        (Variables.livenessProblem (Table.tabulate g.nodes a.definitionsAt)
          (Table.tabulate g.nodes (a.usesAt conditionUses))).solve g := by
  rw [analyze, h]
  exact ⟨_, rfl, rfl, rfl, rfl⟩

/-- The tables of an analysis are those of the graph of its method. -/
structure IsAnalysis (flow : MethodFlow) (a : Arena) (conditionUses : Bool) (method : Nat) :
    Prop where
  graph : a.methodGraph method = .ok flow.graph
  reaching : flow.reaching = (Variables.reachingProblem
    (Table.tabulate flow.graph.nodes a.definitionsAt)).solve flow.graph
  liveness : flow.liveness = (Variables.livenessProblem
    (Table.tabulate flow.graph.nodes a.definitionsAt)
    (Table.tabulate flow.graph.nodes (a.usesAt conditionUses))).solve flow.graph
  uses : flow.uses = useIndex a flow.graph
  definitionSteps : flow.definitionSteps =
    definitionIndex flow.graph (Table.tabulate flow.graph.nodes a.definitionsAt)
  definitions : flow.definitions = .unions
    (flow.graph.nodes.map (Variables.factsAt (Table.tabulate flow.graph.nodes a.definitionsAt)))

section Analyses

variable {a : Arena} {conditionUses : Bool} {m n : Nat} {flow : MethodFlow}

/-- What `analyze` gives fulfils the description of an analysis. -/
theorem isAnalysis (h : analyze a conditionUses m = .ok flow) :
    flow.IsAnalysis a conditionUses m := by
  unfold analyze at h
  cases hg : a.methodGraph m with
  | error e =>
      rw [hg] at h
      cases h
  | ok g =>
      rw [hg] at h
      cases h
      exact ⟨hg, rfl, rfl, rfl, rfl, rfl⟩

/-- The definitions that reach a step are those that are linked to it. -/
theorem IsAnalysis.exists_reachingIn? (h : flow.IsAnalysis a conditionUses m)
    (hclosed : flow.graph.Closed) (hn : n ∈ flow.graph.nodes) :
    ∃ into, flow.reachingIn? n = some into ∧
      ∀ x, x ∈ into ↔ ∃ s, x ∈ a.definitionsAt s ∧ flow.graph.Links a x.name s n := by
  obtain ⟨into, -, hinto, -, harrive, -⟩ := FlowProblem.exists_finish
    (p := Variables.reachingProblem (Table.tabulate flow.graph.nodes a.definitionsAt))
    hclosed rfl hn
  refine ⟨into, ?_, ?_⟩
  · rw [reachingIn?, h.reaching]
    exact hinto
  · intro x
    rw [harrive, Variables.reaching_arrives_iff hclosed]
    simp only [FlowGraph.Links, exists_and_left]

/-- The uses that are live after a step are those to which it is linked. -/
theorem IsAnalysis.exists_liveOut? (h : flow.IsAnalysis a conditionUses m)
    (hclosed : flow.graph.Closed) (hn : n ∈ flow.graph.nodes) :
    ∃ out, flow.liveOut? n = some out ∧
      ∀ x, x ∈ out ↔ ∃ s, x ∈ a.usesAt conditionUses s ∧ flow.graph.Links a x.name n s := by
  obtain ⟨out, -, hout, -, harrive, -⟩ := FlowProblem.exists_finish
    (p := Variables.livenessProblem (Table.tabulate flow.graph.nodes a.definitionsAt)
      (Table.tabulate flow.graph.nodes (a.usesAt conditionUses))) hclosed rfl hn
  refine ⟨out, ?_, ?_⟩
  · rw [liveOut?, h.liveness]
    exact hout
  · intro x
    rw [harrive, Variables.liveness_arrives_iff hclosed]
    simp only [FlowGraph.Links, exists_and_left]

end Analyses

end MethodFlow

/-- **Reaching definitions are exact.** A definition reaches a step of a method just if a path
leads there from a step that makes it, past no step that defines the variable; it leaves the step
just if the step makes it, or if it reaches the step and the step does not define the variable. -/
theorem reachingDefinitions_iff_path {source : Text} {d : Document} (h : parse source = .ok d)
    {m : Nat} (hm : m ∈ d.tree.methods) (conditionUses : Bool) :
    ∃ flow, MethodFlow.analyze d.arena conditionUses m = .ok flow ∧
      d.arena.methodGraph m = .ok flow.graph ∧
      ∀ n ∈ flow.graph.nodes, ∃ into out,
        flow.reachingIn? n = some into ∧ flow.reachingOut? n = some out ∧
        (∀ x, x ∈ into ↔ ∃ s between, x ∈ d.arena.definitionsAt s ∧
          flow.graph.Leads s between n ∧ ∀ k ∈ between, ¬d.arena.Defines k x.name) ∧
        ∀ x, x ∈ out ↔
          x ∈ d.arena.definitionsAt n ∨ (x ∈ into ∧ ¬d.arena.Defines n x.name) := by
  obtain ⟨id, body, hgraph, hbody⟩ := exists_methodGraph h hm
  obtain ⟨flow, hflow, hg, hreaching, -⟩ := MethodFlow.exists_analyze hgraph conditionUses
  have hclosed : flow.graph.Closed := hg ▸ hbody.closed_graph
  rw [← hg] at hreaching
  refine ⟨flow, hflow, hg ▸ hgraph, fun n hn => ?_⟩
  obtain ⟨into, out, hinto, hout, harrive, hleave⟩ := FlowProblem.exists_finish
    (p := Variables.reachingProblem (Table.tabulate flow.graph.nodes d.arena.definitionsAt))
    hclosed rfl hn
  refine ⟨into, out, ?_, ?_, fun x => ?_, fun x => ?_⟩
  · rw [MethodFlow.reachingIn?, hreaching]
    exact hinto
  · rw [MethodFlow.reachingOut?, hreaching]
    exact hout
  · rw [harrive, Variables.reaching_arrives_iff hclosed]
  · rw [hleave, harrive, Variables.reaching_leaves_iff hn]

/-- A variable is defined before a loop, changed in the loop and used after it. -/
theorem reachingDefinitions_iff_path_loop : ∃ d flow,
    parse "class A \x7b void M() \x7b int a = 0; while (b) a = a + c; d = a; \x7d \x7d".toList = .ok d ∧
      MethodFlow.analyze d.arena false 2 = .ok flow ∧
        ∀ n ∈ flow.graph.nodes, ∃ into, flow.reachingIn? n = some into ∧
          ∀ x, x ∈ into ↔ ∃ s between, x ∈ d.arena.definitionsAt s ∧
            flow.graph.Leads s between n ∧ ∀ k ∈ between, ¬d.arena.Defines k x.name := by
  have hread : (parse
      "class A \x7b void M() \x7b int a = 0; while (b) a = a + c; d = a; \x7d \x7d".toList).toOption.any
        (fun d => d.tree.methods.contains 2) = true := by
    decide +kernel
  obtain ⟨d, hd, hmethod⟩ := exists_document_of_any hread
  obtain ⟨flow, hflow, -, htables⟩ :=
    reachingDefinitions_iff_path hd (m := 2) (List.contains_iff_mem.mp hmethod) false
  refine ⟨d, flow, hd, hflow, fun n hn => ?_⟩
  obtain ⟨into, -, hinto, -, hpaths, -⟩ := htables n hn
  exact ⟨into, hinto, hpaths⟩

/-- **Live uses are exact.** A use is live after a step of a method just if a path leads from there
to a step that has it, past no step that defines the variable; it is live before the step just if
the step has it, or if it is live after the step and the step does not define the variable. -/
theorem liveUses_iff_path {source : Text} {d : Document} (h : parse source = .ok d)
    {m : Nat} (hm : m ∈ d.tree.methods) (conditionUses : Bool) :
    ∃ flow, MethodFlow.analyze d.arena conditionUses m = .ok flow ∧
      d.arena.methodGraph m = .ok flow.graph ∧
      ∀ n ∈ flow.graph.nodes, ∃ before after,
        flow.liveIn? n = some before ∧ flow.liveOut? n = some after ∧
        (∀ x, x ∈ after ↔ ∃ s between, x ∈ d.arena.usesAt conditionUses s ∧
          flow.graph.Leads n between s ∧ ∀ k ∈ between, ¬d.arena.Defines k x.name) ∧
        ∀ x, x ∈ before ↔
          x ∈ d.arena.usesAt conditionUses n ∨ (x ∈ after ∧ ¬d.arena.Defines n x.name) := by
  obtain ⟨id, body, hgraph, hbody⟩ := exists_methodGraph h hm
  obtain ⟨flow, hflow, hg, -, hliveness⟩ := MethodFlow.exists_analyze hgraph conditionUses
  have hclosed : flow.graph.Closed := hg ▸ hbody.closed_graph
  rw [← hg] at hliveness
  refine ⟨flow, hflow, hg ▸ hgraph, fun n hn => ?_⟩
  obtain ⟨after, before, hafter, hbefore, harrive, hleave⟩ := FlowProblem.exists_finish
    (p := Variables.livenessProblem (Table.tabulate flow.graph.nodes d.arena.definitionsAt)
      (Table.tabulate flow.graph.nodes (d.arena.usesAt conditionUses))) hclosed rfl hn
  refine ⟨before, after, ?_, ?_, fun x => ?_, fun x => ?_⟩
  · rw [MethodFlow.liveIn?, hliveness]
    exact hbefore
  · rw [MethodFlow.liveOut?, hliveness]
    exact hafter
  · rw [harrive, Variables.liveness_arrives_iff hclosed]
  · rw [hleave, harrive, Variables.liveness_leaves_iff hn]

/-- Uses in the condition of a loop, in its body and after it. -/
theorem liveUses_iff_path_loop : ∃ d flow,
    parse "class A \x7b void M() \x7b int a = 0; while (b) a = a + c; d = a; \x7d \x7d".toList = .ok d ∧
      MethodFlow.analyze d.arena true 2 = .ok flow ∧
        ∀ n ∈ flow.graph.nodes, ∃ after, flow.liveOut? n = some after ∧
          ∀ x, x ∈ after ↔ ∃ s between, x ∈ d.arena.usesAt true s ∧
            flow.graph.Leads n between s ∧ ∀ k ∈ between, ¬d.arena.Defines k x.name := by
  have hread : (parse
      "class A \x7b void M() \x7b int a = 0; while (b) a = a + c; d = a; \x7d \x7d".toList).toOption.any
        (fun d => d.tree.methods.contains 2) = true := by
    decide +kernel
  obtain ⟨d, hd, hmethod⟩ := exists_document_of_any hread
  obtain ⟨flow, hflow, -, htables⟩ :=
    liveUses_iff_path hd (m := 2) (List.contains_iff_mem.mp hmethod) true
  refine ⟨d, flow, hd, hflow, fun n hn => ?_⟩
  obtain ⟨_, after, -, hafter, hpaths, -⟩ := htables n hn
  exact ⟨after, hafter, hpaths⟩

end SharpMutants
