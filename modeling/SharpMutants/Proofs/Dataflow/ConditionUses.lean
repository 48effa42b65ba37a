import SharpMutants.Proofs.Dataflow.Cycles

/-!
# What the uses in conditions add

An analysis that counts the names in conditions as uses differs from one that does not in the
live uses only, and there by just the names in conditions.  A condition of an `if`, `while` or
`for` is a step as a whole (`Steps.Statement.isCondition_of_inCondition`), so a use in a
condition is a use of that step and of no other.  What a step defines does not depend on its
uses; so a path that carries a use of another step carries it in both analyses
(`MethodFlow.drops_after`, `MethodFlow.drops_before`).
-/

namespace SharpMutants

/-! ## Conditions -/

namespace Tree

variable {t s : Tree} {c i k n : Nat}

/-- A node is the condition of a statement: the first child of an `if` or `while`, or the second
of a `for`. -/
inductive ConditionOf (t : Tree) (k : Nat) : Nat → Prop
  | test {d : Node} {cond : Tree} {cs : List Tree} (hk : t.subtree? k = some (.node d (cond :: cs)))
      (hkind : d.kind = .ifStatement ∨ d.kind = .whileStatement) : ConditionOf t k (k + 1)
  | head {d : Node} {init cond : Tree} {cs : List Tree}
      (hk : t.subtree? k = some (.node d (init :: cond :: cs))) (hkind : d.kind = .forStatement) :
      ConditionOf t k (k + 1 + init.size)

/-- A node is in a condition. -/
def InCondition (t : Tree) (i : Nat) : Prop := ∃ k c, t.ConditionOf k c ∧ t.Below c i

/-- The condition of a node is a child of it. -/
theorem ConditionOf.isChild (h : t.ConditionOf k c) : t.arena.IsChild k c := by
  cases h with
  | test hk => exact Tree.isChild hk [] rfl
  | @head d init cond cs hk =>
      have hchild := Tree.isChild hk [init] (rfl : _ = [init] ++ cond :: cs)
      rwa [sizes, sizes, Nat.add_zero] at hchild

/-- A condition is a step of its statement. -/
theorem ConditionOf.mem_own (h : t.ConditionOf k c) :
    ∃ s, t.subtree? k = some s ∧ c ∈ Steps.own k s.kind s.children := by
  cases h with
  | test hk hkind =>
      refine ⟨_, hk, ?_⟩
      rcases hkind with hkind | hkind <;>
        (rw [kind, root, hkind]; exact List.mem_cons_self)
  | head hk hkind =>
      refine ⟨_, hk, ?_⟩
      rw [kind, root, hkind]
      exact List.mem_cons_of_mem _ List.mem_cons_self

/-- The nodes that the flat view takes for conditions. -/
theorem isCondition_iff : t.arena.isCondition c = true ↔ ∃ k, t.ConditionOf k c := by
  constructor
  · intro h
    rw [Arena.isCondition] at h
    split at h
    · cases h
    · rename_i k hk
      obtain ⟨⟨d, cs⟩, hs⟩ := (Arena.parent?_eq_some_iff.mp hk).exists_subtree
      simp only [Arena.kind?_eq, hs, Option.map_some, kind, root, Arena.isChildAt,
        Arena.childrenOf_arena hs, children, getElem?_numbersFrom] at h
      refine ⟨k, ?_⟩
      split at h
      · rename_i hkind
        obtain _ | ⟨cond, cs⟩ := cs
        · simp at h
        · obtain rfl : k + 1 = c := by simpa [sizes] using h
          exact .test hs (.inl (Option.some.inj hkind))
      · rename_i hkind
        obtain _ | ⟨cond, cs⟩ := cs
        · simp at h
        · obtain rfl : k + 1 = c := by simpa [sizes] using h
          exact .test hs (.inr (Option.some.inj hkind))
      · rename_i hkind
        obtain _ | ⟨init, _ | ⟨cond, cs⟩⟩ := cs
        · simp at h
        · simp at h
        · obtain rfl : k + 1 + init.size = c := by simpa [sizes] using h
          exact .head hs (Option.some.inj hkind)
      · cases h
  · rintro ⟨k, h⟩
    rw [Arena.isCondition, Arena.parent?_eq_some_iff.mpr h.isChild]
    cases h with
    | test hk hkind =>
        simp only [Arena.kind?_eq, hk, Option.map_some, kind, root, Arena.isChildAt,
          Arena.childrenOf_arena hk, children, getElem?_numbersFrom]
        rcases hkind with hkind | hkind <;> simp [hkind, sizes]
    | head hk hkind =>
        simp only [Arena.kind?_eq, hk, Option.map_some, kind, root, Arena.isChildAt,
          Arena.childrenOf_arena hk, children, getElem?_numbersFrom]
        simp [hkind, sizes]

/-- Of two nodes with a node below both, one is below the other. -/
theorem Below.total {a b : Nat} (ha : t.Below a i) (hb : t.Below b i) :
    t.Below a b ∨ t.Below b a := by
  obtain ⟨u, hu, hle, hlt⟩ := ha
  obtain ⟨v, hv, hle', hlt'⟩ := hb
  rcases Nat.le_total a b with hab | hab
  · exact .inl ⟨u, hu, hab, by omega⟩
  · exact .inr ⟨v, hv, hab, by omega⟩

/-- The statement of a condition below a node is below the node, if the condition is not the
node. -/
theorem ConditionOf.below (h : t.ConditionOf k c) (hc : t.Below n c) (hne : c ≠ n) :
    t.Below n k := by
  obtain ⟨p, hp, hbelow⟩ := exists_parent_below hc hne
  obtain rfl : p = k := Option.some.inj (hp.symm.trans (Arena.parent?_eq_some_iff.mpr h.isChild))
  exact hbelow

/-- A condition of a grammatical tree has no steps in it. -/
theorem Grammatical.inert_condition (h : t.Grammatical) (hc : t.ConditionOf k c) :
    ∃ cond, t.subtree? c = some cond ∧ Steps.Inert cond := by
  cases hc with
  | test hk hkind =>
      obtain ⟨sym, hconforms⟩ := h.of_mem_subtrees (List.mem_of_getElem? hk)
      obtain @⟨_, d, ss, cs, rule, -, children⟩ := hconforms
      refine ⟨_, subtree?_child hk (rfl : _ = [] ++ _ :: _), ?_⟩
      rcases hkind with hkind | hkind
      · rw [hkind] at rule
        cases rule with
        | ifThen | ifElse => exact (List.forall₂_cons.mp children).1.executed
      · rw [hkind] at rule
        cases rule with
        | whileStatement => exact (List.forall₂_cons.mp children).1.executed
  | @head d init cond cs hk hkind =>
      obtain ⟨sym, hconforms⟩ := h.of_mem_subtrees (List.mem_of_getElem? hk)
      obtain @⟨_, d, ss, cs, rule, -, children⟩ := hconforms
      have hcond := subtree?_child hk (rfl : _ = [init] ++ cond :: cs)
      rw [sizes, sizes, Nat.add_zero] at hcond
      refine ⟨cond, hcond, ?_⟩
      rw [hkind] at rule
      cases rule with
      | forDeclaration | forExpression =>
          have hrest := (List.forall₂_cons.mp children).2
          exact (List.forall₂_cons.mp hrest).1.executed

end Tree

namespace Steps

variable {root t body : Tree} {c i id k n s : Nat}

/-- The steps of a node below another are steps of that. -/
theorem steps_subset (hid : root.subtree? id = some t) (hk : root.subtree? k = some body)
    (hbelow : root.Below id k) : steps k body ⊆ steps id t := by
  intro n hn
  rw [steps, stepsAmong, List.mem_flatMap] at hn
  obtain ⟨⟨u, j⟩, hu, hn⟩ := hn
  obtain ⟨hle, hu⟩ := List.mem_zipIdx_iff_le_and_getElem?_sub.mp hu
  obtain ⟨hsub, hwithin⟩ := Tree.subtree?_trans hk hu
  have := size_pos u
  dsimp only at hle hn hwithin
  rw [show k + (j - k) = j by omega] at hsub hwithin
  exact own_subset hid hsub (hbelow.trans ⟨body, hk, hle, by omega⟩) hn

/-- **A condition is a step as a whole**: what is below a step and in a condition is below the
condition that the step is. -/
theorem Statement.isCondition_of_inCondition (hgrammatical : root.Grammatical)
    (h : Statement body) (hid : root.subtree? id = some body) (hs : s ∈ steps id body)
    (hi : root.Below s i) : root.InCondition i ↔ root.arena.isCondition s = true := by
  rw [Tree.isCondition_iff]
  constructor
  · rintro ⟨k, c, hcond, hci⟩
    refine ⟨k, ?_⟩
    have hsbelow := h.below_of_mem hid hs
    -- A condition below the body is a step, and steps share no nodes.
    have hsame : root.Below id k → c = s := by
      intro hk
      obtain ⟨u, hu, hown⟩ := hcond.mem_own
      exact (h.apart hid).eq_of_below (own_subset hid hu hk hown) hs hci hi
    by_cases hc : root.Below id c ∧ c ≠ id
    · rwa [← hsame (hcond.below hc.1 hc.2)]
    · -- Otherwise the body is in the condition, with its steps.
      have hbelow : root.Below c id := by
        rcases (hsbelow.trans hi).total hci with hbelow | hbelow
        · obtain rfl : c = id := by
            by_contra hne
            exact hc ⟨hbelow, hne⟩
          exact hbelow
        · exact hbelow
      obtain ⟨cond, hcondId, hinert⟩ := hgrammatical.inert_condition hcond
      have hstep := steps_subset hcondId hid hbelow hs
      rw [hinert] at hstep
      cases hstep
  · rintro ⟨k, hcond⟩
    exact ⟨k, s, hcond, hi⟩

end Steps

/-! ## The two analyses -/

/-- The uses that a step has only if those in conditions count are all its uses, if it is a
condition. -/
theorem Arena.mem_usesAt_false {a : Arena} {n : Nat} {x : Fact} :
    x ∈ a.usesAt false n ↔ x ∈ a.usesAt true n ∧ a.isCondition n ≠ true := by
  unfold usesAt
  split
  · by_cases hcondition : a.isCondition n = true
    · simp [Variables.uses, hcondition, FactSet.mem_ofList]
    · simp [Variables.uses, hcondition]
  · simp only [FactSet.not_mem_empty, false_and]

namespace MethodFlow

/-- The uses that are live after a step are those to which it is linked; those that are live
before it are its own, and those live after it of variables that it does not define. -/
theorem IsAnalysis.exists_live {a : Arena} {conditionUses : Bool} {m n : Nat} {flow : MethodFlow}
    (h : flow.IsAnalysis a conditionUses m) (hclosed : flow.graph.Closed)
    (hn : n ∈ flow.graph.nodes) :
    ∃ before after, flow.liveIn? n = some before ∧ flow.liveOut? n = some after ∧
      (∀ x, x ∈ after ↔ ∃ s, x ∈ a.usesAt conditionUses s ∧ flow.graph.Links a x.name n s) ∧
      ∀ x, x ∈ before ↔ x ∈ a.usesAt conditionUses n ∨ (x ∈ after ∧ ¬a.Defines n x.name) := by
  obtain ⟨after, before, hafter, hbefore, harrive, hleave⟩ := FlowProblem.exists_finish
    (p := Variables.livenessProblem (Table.tabulate flow.graph.nodes a.definitionsAt)
      (Table.tabulate flow.graph.nodes (a.usesAt conditionUses))) hclosed rfl hn
  refine ⟨before, after, ?_, ?_, fun x => ?_, fun x => ?_⟩
  · rw [liveIn?, h.liveness]
    exact hbefore
  · rw [liveOut?, h.liveness]
    exact hafter
  · rw [harrive, Variables.liveness_arrives_iff hclosed]
    simp only [FlowGraph.Links, exists_and_left]
  · rw [hleave, harrive, Variables.liveness_leaves_iff hn]

/-- Some facts are others without those about names in conditions. -/
def Drops (t : Tree) (facts facts' : Facts) : Prop :=
  ∀ x, x ∈ facts ↔ x ∈ facts' ∧ ¬t.InCondition x.site

/-- The definitions that an analysis generates are those of its steps. -/
theorem generated_of_analyze {a : Arena} {conditionUses : Bool} {m : Nat} {flow : MethodFlow}
    (h : analyze a conditionUses m = .ok flow) :
    flow.generated = Table.tabulate flow.graph.nodes a.definitionsAt := by
  unfold analyze at h
  cases hg : a.methodGraph m with
  | error e =>
      rw [hg] at h
      cases h
  | ok g =>
      rw [hg] at h
      cases h
      rfl

/-- One analysis is another but for the uses in conditions, which are live in that one only. -/
structure WithoutConditions (t : Tree) (off on : MethodFlow) : Prop where
  graph : off.graph = on.graph
  generated : off.generated = on.generated
  definitions : off.definitions = on.definitions
  definitionSteps : off.definitionSteps = on.definitionSteps
  uses : off.uses = on.uses
  reaching : off.reaching = on.reaching
  live : ∀ n ∈ on.graph.nodes, ∃ before after before' after',
    off.liveIn? n = some before ∧ off.liveOut? n = some after ∧
    on.liveIn? n = some before' ∧ on.liveOut? n = some after' ∧
    Drops t before before' ∧ Drops t after after'

section Analyses

variable {t : Tree} {m n : Nat} {off on : MethodFlow} {before after before' after' : Facts}

/-- What a step uses apart from conditions, it uses outside of them. -/
def UsesApart (t : Tree) (n : Nat) : Prop :=
  ∀ x, x ∈ t.arena.usesAt false n ↔ x ∈ t.arena.usesAt true n ∧ ¬t.InCondition x.site

/-- A path leads to the same steps in both analyses, whatever uses they have. -/
theorem drops_after {g : FlowGraph} (hg : g.Closed) (hsteps : ∀ s ∈ g.nodes, UsesApart t s)
    (hoff : ∀ x, x ∈ after ↔ ∃ s, x ∈ t.arena.usesAt false s ∧ g.Links t.arena x.name n s)
    (hon : ∀ x, x ∈ after' ↔ ∃ s, x ∈ t.arena.usesAt true s ∧ g.Links t.arena x.name n s) :
    Drops t after after' := by
  intro x
  have hends : ∀ s, g.Links t.arena x.name n s → s ∈ g.nodes := by
    rintro s ⟨between, hpath, -⟩
    exact hpath.mem_nodes hg s (.inr (.inr rfl))
  rw [hoff, hon, ← exists_and_right]
  refine exists_congr fun s => ?_
  constructor
  · rintro ⟨huse, hlink⟩
    obtain ⟨huse, hout⟩ := (hsteps s (hends s hlink) x).mp huse
    exact ⟨⟨huse, hlink⟩, hout⟩
  · rintro ⟨⟨huse, hlink⟩, hout⟩
    exact ⟨(hsteps s (hends s hlink) x).mpr ⟨huse, hout⟩, hlink⟩

/-- A definition ends the same uses in both analyses. -/
theorem drops_before (hstep : UsesApart t n) (hafter : Drops t after after')
    (hoff : ∀ x, x ∈ before ↔ x ∈ t.arena.usesAt false n ∨
      (x ∈ after ∧ ¬t.arena.Defines n x.name))
    (hon : ∀ x, x ∈ before' ↔ x ∈ t.arena.usesAt true n ∨
      (x ∈ after' ∧ ¬t.arena.Defines n x.name)) : Drops t before before' := by
  intro x
  rw [hoff, hon, hstep x, hafter x, or_and_right, and_right_comm]

/-- Two analyses of a method that differ in the uses in conditions only differ as their
descriptions say. -/
theorem withoutConditions (hoff : analyze t.arena false m = .ok off)
    (hon : analyze t.arena true m = .ok on) (hclosed : on.graph.Closed)
    (hsteps : ∀ s ∈ on.graph.nodes, UsesApart t s) : WithoutConditions t off on := by
  have off' := isAnalysis hoff
  have on' := isAnalysis hon
  have hgraph : off.graph = on.graph := Except.ok.inj (off'.graph.symm.trans on'.graph)
  refine ⟨hgraph, ?_, ?_, ?_, ?_, ?_, fun n hn => ?_⟩
  · rw [generated_of_analyze hoff, generated_of_analyze hon, hgraph]
  · rw [off'.definitions, on'.definitions, hgraph]
  · rw [off'.definitionSteps, on'.definitionSteps, hgraph]
  · rw [off'.uses, on'.uses, hgraph]
  · rw [off'.reaching, on'.reaching, hgraph]
  · obtain ⟨before, after, hin, hout, hafter, hbefore⟩ :=
      off'.exists_live (hgraph ▸ hclosed) (hgraph ▸ hn)
    obtain ⟨before', after', hin', hout', hafter', hbefore'⟩ := on'.exists_live hclosed hn
    rw [hgraph] at hafter
    have hdrops := drops_after hclosed hsteps hafter hafter'
    exact ⟨before, after, before', after', hin, hout, hin', hout',
      drops_before (hsteps n hn) hdrops hbefore hbefore', hdrops⟩

end Analyses

end MethodFlow

/-- The steps of a statement have no uses in conditions but those of conditions. -/
theorem Steps.Statement.usesApart {root body : Tree} {id s : Nat}
    (hgrammatical : root.Grammatical) (h : Statement body) (hid : root.subtree? id = some body)
    (hs : s ∈ steps id body) : MethodFlow.UsesApart root s := by
  intro x
  rw [Arena.mem_usesAt_false]
  refine and_congr_right fun hx => not_congr ?_
  exact (h.isCondition_of_inCondition hgrammatical hid hs
    (Variables.nameBelow_of_mem_usesAt hx).1).symm

/-- **Uses in conditions add just themselves.**  The analyses of a method with and without them
have the same graph, definitions, places of uses and reaching definitions; and at every step the
uses that are live without them are those that are live with them and are not in the condition of
an `if`, `while` or `for`.  So what is live without them is live with them. -/
theorem exists_withoutConditions {source : Text} {d : Document} (h : parse source = .ok d)
    {m : Nat} (hm : m ∈ d.tree.methods) :
    ∃ off on, MethodFlow.analyze d.arena false m = .ok off ∧
      MethodFlow.analyze d.arena true m = .ok on ∧ off.WithoutConditions d.tree on ∧
      ∀ n ∈ on.graph.nodes,
        (∀ before before', off.liveIn? n = some before → on.liveIn? n = some before' →
          ∀ x ∈ before, x ∈ before') ∧
        ∀ after after', off.liveOut? n = some after → on.liveOut? n = some after' →
          ∀ x ∈ after, x ∈ after' := by
  obtain ⟨-, -, -, -, -, hgrammatical, -⟩ := conforms_of_parse h
  obtain ⟨id, body, -, hid, hbody, hgraph⟩ := exists_methodBody h hm
  obtain ⟨off, hoff, -⟩ := MethodFlow.exists_analyze hgraph false
  obtain ⟨on, hon, hg, -⟩ := MethodFlow.exists_analyze hgraph true
  have hsteps : ∀ s ∈ on.graph.nodes, MethodFlow.UsesApart d.tree s := by
    intro s hs
    rw [hg, hbody.mem_nodes_graph] at hs
    exact hbody.usesApart hgrammatical hid hs
  have hwithout := MethodFlow.withoutConditions hoff hon (hg ▸ hbody.closed_graph) hsteps
  refine ⟨off, on, hoff, hon, hwithout, fun n hn => ⟨?_, ?_⟩⟩
  · intro facts facts' hfacts hfacts' x hx
    obtain ⟨before, after, before', after', hin, -, hin', -, hdrops, -⟩ := hwithout.live n hn
    obtain rfl := Option.some.inj (hin.symm.trans hfacts)
    obtain rfl := Option.some.inj (hin'.symm.trans hfacts')
    exact ((hdrops x).mp hx).1
  · intro facts facts' hfacts hfacts' x hx
    obtain ⟨before, after, before', after', -, hout, -, hout', -, hdrops⟩ := hwithout.live n hn
    obtain rfl := Option.some.inj (hout.symm.trans hfacts)
    obtain rfl := Option.some.inj (hout'.symm.trans hfacts')
    exact ((hdrops x).mp hx).1

/-- A loop whose condition assigns a variable. -/
def assigningLoop : Text :=
  ("class C \x7b void M(int a, int b) \x7b while ((a = b) < a) b = a; b = a; \x7d \x7d").toList

/-- A name in the condition is live at the end of the body if it counts, and nothing is live there
if it does not. -/
theorem exists_withoutConditions_loop : ∃ d off on after,
    parse assigningLoop = .ok d ∧
      MethodFlow.analyze d.arena false 2 = .ok off ∧ MethodFlow.analyze d.arena true 2 = .ok on ∧
      off.WithoutConditions d.tree on ∧ off.liveOut? 13 = some .empty ∧
      on.liveOut? 13 = some after ∧ ⟨11, "b"⟩ ∈ after := by
  have hread : (parse assigningLoop).toOption.any (fun d => d.tree.methods.contains 2 &&
      (MethodFlow.analyze d.arena false 2).toOption.any (fun off =>
        off.liveOut? 13 == some .empty) &&
      (MethodFlow.analyze d.arena true 2).toOption.any fun on =>
        (on.liveOut? 13).any fun facts => facts.toList.contains ⟨11, "b"⟩) = true := by
    decide +kernel
  obtain ⟨d, hd, hfacts⟩ := exists_document_of_any hread
  simp only [Bool.and_eq_true] at hfacts
  obtain ⟨⟨hmethod, hwithout⟩, hwith⟩ := hfacts
  obtain ⟨off, on, hoff, hon, hlive, -⟩ :=
    exists_withoutConditions hd (m := 2) (List.contains_iff_mem.mp hmethod)
  rw [hoff, Except.toOption, Option.any_some, beq_iff_eq] at hwithout
  rw [hon, Except.toOption, Option.any_some, Option.any_eq_true] at hwith
  obtain ⟨after, hafter, hmem⟩ := hwith
  exact ⟨d, off, on, after, hd, hoff, hon, hlive, hwithout, hafter,
    List.contains_iff_mem.mp hmem⟩

end SharpMutants
