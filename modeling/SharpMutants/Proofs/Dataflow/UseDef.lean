import SharpMutants.Proofs.Dataflow.Indexes

/-!
# Chains of uses and chains of definitions agree

A definition is linked to a use of its variable if a path leads from the step that makes
it to the step that has the use, past no step that defines the variable (`FlowGraph.Links`).
What the forward problem says at the use and what the backward problem says at the
definition are both this relation (`mem_definitionsOfUse`, `mem_usesOfDefinition`), since
the indexes lead to the right steps.  So a definition is in the chain of a use just if the
use is in the chain of the definition: `useDef_iff_defUse`.
-/

namespace SharpMutants

/-- The facts about a name are those of the set with the name. -/
theorem FactSet.mem_named {s : Facts} {name : String} {x : Fact} :
    x ∈ s.named name ↔ x ∈ s ∧ x.name = name := by
  simp [named, mem_def]

namespace MethodFlow

variable {a : Arena} {t : Tree} {conditionUses : Bool} {flow : MethodFlow} {method n i site : Nat}
  {name : String}

/-- **The chain of a use** has the definitions that are linked to its step. -/
theorem mem_definitionsOfUse (h : flow.IsAnalysis a conditionUses method)
    (hclosed : flow.graph.Closed) (hn : n ∈ flow.graph.nodes)
    (huse : flow.uses[i]? = some ⟨n, name⟩) :
    ∃ facts, flow.definitionsOfUse i = .ok facts ∧ ∀ x, x ∈ facts ↔ x.name = name ∧
      ∃ s, x ∈ a.definitionsAt s ∧ flow.graph.Links a name s n := by
  obtain ⟨into, hinto, hlinked⟩ := h.exists_reachingIn? hclosed hn
  refine ⟨into.named name, ?_, ?_⟩
  · rw [definitionsOfUse, reachingDefinitions, huse, Option.bind_some, hinto]
    rfl
  · intro x
    rw [FactSet.mem_named, hlinked, and_comm]
    apply and_congr_right
    intro hname
    rw [hname]

/-- **The chain of a definition** has the uses to which its step is linked. -/
theorem mem_usesOfDefinition (h : flow.IsAnalysis a conditionUses method)
    (hclosed : flow.graph.Closed) (hn : n ∈ flow.graph.nodes)
    (hstep : flow.definitionSteps[site]? = some n) (name : String) :
    ∃ facts, flow.usesOfDefinition site name = .ok facts ∧ ∀ x, x ∈ facts ↔ x.name = name ∧
      ∃ m, x ∈ a.usesAt conditionUses m ∧ flow.graph.Links a name n m := by
  obtain ⟨out, hout, hlinked⟩ := h.exists_liveOut? hclosed hn
  refine ⟨out.named name, ?_, ?_⟩
  · rw [usesOfDefinition, liveOutOf, hstep, Option.bind_some, hout]
    rfl
  · intro x
    rw [FactSet.mem_named, hlinked, and_comm]
    apply and_congr_right
    intro hname
    rw [hname]

variable (h : flow.IsAnalysis t.arena conditionUses method) (hseparate : flow.graph.Separate t)

include h hseparate

/-- The step of an identifier is the one that it is below. -/
theorem stepOfUse?_eq_some_iff (hkind : t.arena.kind? i = some (.identifier name)) :
    flow.stepOfUse? i = some n ↔ n ∈ flow.graph.nodes ∧ t.Below n i := by
  rw [stepOfUse?, h.uses, Option.map_eq_some_iff]
  constructor
  · intro huse
    obtain ⟨⟨step, name'⟩, huse, rfl⟩ := huse
    obtain ⟨hn, hbelow, -⟩ := (getElem?_useIndex hseparate).mp huse
    exact ⟨hn, hbelow⟩
  · intro hn
    exact ⟨⟨n, name⟩, (getElem?_useIndex hseparate).mpr ⟨hn.1, hn.2, hkind⟩, rfl⟩

/-- **The definitions of a use and the uses of a definition** are the same links. -/
theorem mem_definitionsOfUse_iff (hclosed : flow.graph.Closed) (hn : n ∈ flow.graph.nodes)
    (huse : ⟨i, name⟩ ∈ t.arena.usesAt conditionUses n)
    (hdefinition : ⟨site, name⟩ ∈ flow.definitions) :
    ∃ defs uses, flow.definitionsOfUse i = .ok defs ∧ flow.usesOfDefinition site name = .ok uses ∧
      (⟨site, name⟩ ∈ defs ↔ ⟨i, name⟩ ∈ uses) := by
  rw [h.definitions, FactSet.mem_unions] at hdefinition
  obtain ⟨facts, hfacts, hdefinition⟩ := hdefinition
  obtain ⟨m, hm, rfl⟩ := List.mem_map.mp hfacts
  rw [Variables.mem_factsAt hm] at hdefinition
  have hname := Variables.nameBelow_of_mem_usesAt huse
  have hindex : flow.uses[i]? = some ⟨n, name⟩ := by
    rw [h.uses, getElem?_useIndex hseparate]
    exact ⟨hn, hname⟩
  have hstep : flow.definitionSteps[site]? = some m := by
    rw [h.definitionSteps, getElem?_definitionIndex hseparate]
    exact ⟨hm, name, hdefinition⟩
  obtain ⟨defs, hdefs, hmemDefs⟩ := mem_definitionsOfUse h hclosed hn hindex
  obtain ⟨uses, huses, hmemUses⟩ := mem_usesOfDefinition h hclosed hm hstep name
  refine ⟨defs, uses, hdefs, huses, ?_⟩
  rw [hmemDefs, hmemUses]
  -- No other step makes the definition, and no other step has the use.
  constructor
  · intro hlinked
    obtain ⟨-, s, hs, hlinks⟩ := hlinked
    obtain ⟨between, hleads, -⟩ := id hlinks
    obtain rfl := hseparate s (hleads.mem_nodes hclosed s (.inl rfl)) m hm site
      (Variables.below_of_mem_definitionsAt hs) (Variables.below_of_mem_definitionsAt hdefinition)
    exact ⟨rfl, n, huse, hlinks⟩
  · intro hlinked
    obtain ⟨-, s, hs, hlinks⟩ := hlinked
    obtain ⟨between, hleads, -⟩ := id hlinks
    obtain rfl := hseparate s (hleads.mem_nodes hclosed s (.inr (.inr rfl))) n hn i
      (Variables.nameBelow_of_mem_usesAt hs).1 hname.1
    exact ⟨rfl, m, hdefinition, hlinks⟩

/-- **What a chain of a definition has** is a use of a step. -/
theorem exists_of_mem_usesOfDefinition (hclosed : flow.graph.Closed) {uses : List Fact}
    (huses : flow.usesOfDefinition site name = .ok uses) {x : Fact} (hx : x ∈ uses) :
    ∃ n ∈ flow.graph.nodes, x ∈ t.arena.usesAt conditionUses n ∧ t.NameBelow n x := by
  cases hstep : flow.definitionSteps[site]? with
  | none =>
      rw [usesOfDefinition, liveOutOf, hstep] at huses
      cases huses
  | some m =>
      obtain ⟨hm, -⟩ := (getElem?_definitionIndex hseparate).mp (h.definitionSteps ▸ hstep)
      obtain ⟨uses', huses', hmem⟩ := mem_usesOfDefinition h hclosed hm hstep name
      obtain rfl := Except.ok.inj (huses.symm.trans huses')
      obtain ⟨-, n, hn, between, hleads, -⟩ := (hmem x).mp hx
      exact ⟨n, hleads.mem_nodes hclosed n (.inr (.inr rfl)), hn,
        Variables.nameBelow_of_mem_usesAt hn⟩

end MethodFlow

/-- **Chains of uses and chains of definitions agree.**  The step of an identifier is the step of
the method that it is below.  If the step uses the identifier, each definition of its variable is
in the chain of the use just if the use is in the chain of the definition; if it does not, the
identifier is in no chain. -/
theorem useDef_iff_defUse {source : Text} {d : Document} (h : parse source = .ok d) {m : Nat}
    (hm : m ∈ d.tree.methods) (conditionUses : Bool) :
    ∃ flow, MethodFlow.analyze d.arena conditionUses m = .ok flow ∧
      ∀ i x, d.arena.kind? i = some (.identifier x) →
        (∀ n, flow.stepOfUse? i = some n ↔ n ∈ flow.graph.nodes ∧ d.tree.Below n i) ∧
        (∀ n, flow.stepOfUse? i = some n → ⟨i, x⟩ ∈ d.arena.usesAt conditionUses n →
          ∀ site, ⟨site, x⟩ ∈ flow.definitions → ∃ defs uses, flow.definitionsOfUse i = .ok defs ∧
            flow.usesOfDefinition site x = .ok uses ∧ (⟨site, x⟩ ∈ defs ↔ ⟨i, x⟩ ∈ uses)) ∧
        ((∀ n, flow.stepOfUse? i = some n → ⟨i, x⟩ ∉ d.arena.usesAt conditionUses n) →
          ∀ site y uses, flow.usesOfDefinition site y = .ok uses → ∀ u ∈ uses, u.site ≠ i) := by
  obtain ⟨-, -, -, -, -, hgrammatical, -⟩ := conforms_of_parse h
  obtain ⟨id, body, hgraph, hid, hbody⟩ := Tree.Grammatical.exists_methodBody hgrammatical hm
  obtain ⟨flow, hflow, hg, -, -⟩ := MethodFlow.exists_analyze hgraph conditionUses
  have hanalysis := MethodFlow.isAnalysis hflow
  have hclosed : flow.graph.Closed := hg ▸ hbody.closed_graph
  have hseparate : flow.graph.Separate d.tree := hg ▸ hbody.separate hid
  refine ⟨flow, hflow, ?_⟩
  intro i x hkind
  have hstep := fun n =>
    MethodFlow.stepOfUse?_eq_some_iff (n := n) hanalysis hseparate hkind
  refine ⟨hstep, ?_, ?_⟩
  · intro n hn huse site hdefinition
    exact MethodFlow.mem_definitionsOfUse_iff hanalysis hseparate hclosed ((hstep n).mp hn).1 huse
      hdefinition
  · intro hunused site y uses huses u hu hsite
    obtain ⟨n, hn, huse, hbelow, hkind'⟩ :=
      MethodFlow.exists_of_mem_usesOfDefinition hanalysis hseparate hclosed huses hu
    obtain ⟨_, name⟩ := u
    subst hsite
    obtain rfl := Kind.identifier.inj (Option.some.inj (hkind.symm.trans hkind'))
    exact hunused n ((hstep n).mpr ⟨hn, hbelow⟩) huse

/-- A variable is changed in a loop by a step that uses it once and names it twice. -/
theorem useDef_iff_defUse_loop : ∃ d flow,
    parse "class A \x7b void M() \x7b int a = 0; while (b) a = a + c; d = a; \x7d \x7d".toList = .ok d ∧
      MethodFlow.analyze d.arena false 2 = .ok flow ∧ flow.stepOfUse? 14 = some 10 ∧
      ∃ defs uses, flow.definitionsOfUse 14 = .ok defs ∧ flow.usesOfDefinition 11 "a" = .ok uses ∧
        (⟨11, "a"⟩ ∈ defs ↔ ⟨14, "a"⟩ ∈ uses) ∧ ∀ u ∈ uses, u.site ≠ 12 := by
  have hread : (parse
      "class A \x7b void M() \x7b int a = 0; while (b) a = a + c; d = a; \x7d \x7d".toList).toOption.any
        (fun d => d.tree.methods.contains 2 && d.arena.kind? 14 == some (.identifier "a") &&
          d.arena.kind? 12 == some (.identifier "a") &&
          (d.arena.usesAt false 10).contains ⟨14, "a"⟩ &&
          !(d.arena.usesAt false 10).contains ⟨12, "a"⟩ &&
          (MethodFlow.analyze d.arena false 2).toOption.all fun flow =>
            flow.stepOfUse? 14 == some 10 && flow.stepOfUse? 12 == some 10 &&
              flow.definitions.contains ⟨11, "a"⟩) = true := by
    decide +kernel
  obtain ⟨d, hd, htests⟩ := exists_document_of_any hread
  simp only [Bool.and_eq_true, Bool.not_eq_true', beq_iff_eq, FactSet.contains, List.elem_eq_mem,
    decide_eq_true_eq, decide_eq_false_iff_not] at htests
  obtain ⟨⟨⟨⟨⟨hmethod, hkind⟩, htarget⟩, huse⟩, hunused⟩, htests⟩ := htests
  obtain ⟨flow, hflow, hchains⟩ := useDef_iff_defUse hd hmethod false
  rw [hflow] at htests
  obtain ⟨⟨hstep, hstep'⟩, hdefinition⟩ : (flow.stepOfUse? 14 = some 10 ∧
      flow.stepOfUse? 12 = some 10) ∧ ⟨11, "a"⟩ ∈ flow.definitions := by
    simpa [Except.toOption, FactSet.contains, FactSet.mem_def] using htests
  obtain ⟨-, hagree, -⟩ := hchains 14 "a" hkind
  obtain ⟨-, -, hnone⟩ := hchains 12 "a" htarget
  obtain ⟨defs, uses, hdefs, huses, hiff⟩ := hagree 10 hstep huse 11 hdefinition
  refine ⟨d, flow, hd, hflow, hstep, defs, uses, hdefs, huses, hiff, ?_⟩
  apply hnone _ 11 "a" uses huses
  intro n hn
  obtain rfl := Option.some.inj (hstep'.symm.trans hn)
  exact hunused

end SharpMutants
