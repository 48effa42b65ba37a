import SharpMutants.Proofs.Dataflow.Indexes
import SharpMutants.Proofs.Mutation.Grammatical

/-!
# Every node is rewritten under the data flow of its method

Methods of a grammatical tree do not lie within each other
(`Tree.Grammatical.eq_of_below`), so a node has one scope at most: that of the method
that it is below (`MutationPlan.ScopeAt`).  Walking from one node to the next keeps the
scope right (`ScopeBefore.enter`), every mutator that applies to a node makes its
rewrites (`Mutator.exists_rewrites`), and by induction along the nodes the proposals are
those for each node in its scope, one node after another:
`MutationPlan.exists_proposals`.
-/

namespace SharpMutants

/-! ## Methods -/

/-- There may be methods in the trees of a symbol. -/
def Symbol.holdsMethods : Symbol → Bool
  | .unit | .declaration _ | .member => true
  | _ => false

section Methods

variable {s : Symbol} {k : Kind} {ss : List Symbol} {t u : Tree} {m n i : Nat}

/-- A rule of a symbol without methods makes no method. -/
theorem Rule.isMethod_eq_false (rule : Rule s k ss) (hs : s.holdsMethods = false) :
    k.isMethod = false := by
  cases rule <;> first | rfl | cases hs

/-- No method is in a method or in what holds none. -/
theorem Rule.children_hold_no_methods (rule : Rule s k ss)
    (h : s.holdsMethods = false ∨ k.isMethod = true) : ∀ s' ∈ ss, s'.holdsMethods = false := by
  cases rule <;> simp_all [Symbol.holdsMethods, Kind.isMethod]
  grind

/-- A child of a node conforms to one of the symbols of the rule. -/
theorem exists_symbol_of_mem {R : Symbol → Tree → Prop} {cs : List Tree}
    (h : List.Forall₂ R ss cs) (ht : t ∈ cs) : ∃ s' ∈ ss, R s' t := by
  obtain ⟨n, hn, rfl⟩ := List.getElem_of_mem ht
  have hn' : n < ss.length := by
    rw [h.length_eq]
    exact hn
  exact ⟨ss[n], List.getElem_mem hn', h.get hn' hn⟩

/-- What holds of the symbols below certain symbols holds of the kinds of all nodes below. -/
theorem Conforms.forall_subtrees {P : Symbol → Prop} {Q : Kind → Prop}
    (hrule : ∀ s k ss, Rule s k ss → P s → Q k ∧ ∀ s' ∈ ss, P s') (h : Conforms s t) (hs : P s) :
    ∀ u ∈ t.subtrees, Q u.kind := by
  refine h.inductionOn (motive := fun s t => P s → ∀ u ∈ t.subtrees, Q u.kind) ?_ hs
  clear h hs
  intro s d ss cs rule _ children hs u hu
  obtain ⟨hkind, hparts⟩ := hrule s d.kind ss rule hs
  rw [Tree.subtrees_node, List.mem_cons] at hu
  rcases hu with rfl | hu
  · exact hkind
  · obtain ⟨c, hc, hu⟩ := Tree.mem_subtreesOf.mp hu
    obtain ⟨s', hs', -, ih⟩ := exists_symbol_of_mem children hc
    exact ih (hparts s' hs') u hu

/-- A tree of a symbol without methods has no method in it. -/
theorem Conforms.isMethod_eq_false (h : Conforms s t) (hs : s.holdsMethods = false) :
    ∀ u ∈ t.subtrees, u.kind.isMethod = false :=
  h.forall_subtrees (P := fun s => s.holdsMethods = false) (Q := fun k => k.isMethod = false)
    (fun _ _ _ rule hs => ⟨rule.isMethod_eq_false hs, rule.children_hold_no_methods (.inl hs)⟩) hs

/-- There are no methods below a method. -/
theorem Tree.Grammatical.eq_of_below_method (h : t.Grammatical) (hm : m ∈ t.methods)
    (hn : n ∈ t.methods) (hbelow : t.Below m n) : m = n := by
  obtain ⟨s, hs, hmethod⟩ := Tree.mem_methods.mp hm
  obtain ⟨u, hu, hmethod'⟩ := Tree.mem_methods.mp hn
  obtain ⟨hle, hlt⟩ := (Tree.below_iff hs).mp hbelow
  have hsub := Tree.subtree?_add hs (k := n - m) (by omega)
  rw [show m + (n - m) = n by omega, hu] at hsub
  obtain ⟨sym, hconforms⟩ := h.of_mem_subtrees (List.mem_of_getElem? hs)
  obtain @⟨_, d, ss, cs, rule, -, children⟩ := hconforms
  cases hk : n - m with
  | zero => omega
  | succ k =>
      rw [hk, Tree.subtree?, Tree.subtrees_node, List.getElem?_cons_succ] at hsub
      obtain ⟨c, hc, huc⟩ := Tree.mem_subtreesOf.mp (List.mem_of_getElem? hsub.symm)
      obtain ⟨s', hs', hchild⟩ := exists_symbol_of_mem children hc
      have hnone := rule.children_hold_no_methods (.inr hmethod) s' hs'
      rw [hchild.isMethod_eq_false hnone u huc] at hmethod'
      cases hmethod'

/-- **A node is below one method** at most. -/
theorem Tree.Grammatical.eq_of_below (h : t.Grammatical) (hm : m ∈ t.methods) (hn : n ∈ t.methods)
    (hmi : t.Below m i) (hni : t.Below n i) : m = n := by
  obtain ⟨s, hs, hle, hlt⟩ := id hmi
  obtain ⟨u, hu, hle', hlt'⟩ := id hni
  rcases Nat.le_total m n with hmn | hnm
  · exact h.eq_of_below_method hm hn ⟨s, hs, hmn, by omega⟩
  · exact (h.eq_of_below_method hn hm ⟨u, hu, hnm, by omega⟩).symm

end Methods

/-! ## Scopes -/

namespace MutationPlan

variable {p : MutationPlan} {t u : Tree} {id m : Nat} {scope scope' : Option MethodScope}

/-- The scope at a node: that of the method that it is below, or none if there is none. -/
inductive ScopeAt (p : MutationPlan) (t : Tree) (id : Nat) : Option MethodScope → Prop
  | inside {m : Nat} {s : Tree} {flow : MethodFlow} (hm : m ∈ t.methods)
      (hs : t.subtree? m = some s) (hle : m ≤ id) (hlt : id < m + s.size)
      (hflow : MethodFlow.analyze t.arena p.conditionUses m = .ok flow) :
      ScopeAt p t id (some ⟨m + s.size, flow⟩)
  | outside (hnone : ∀ m ∈ t.methods, ¬t.Below m id) : ScopeAt p t id none

/-- The scope with which the walk comes to a node: that at the node before it. -/
def ScopeBefore (p : MutationPlan) (t : Tree) (id : Nat) (scope : Option MethodScope) : Prop :=
  (id = 0 ∧ scope = none) ∨ ∃ before, id = before + 1 ∧ p.ScopeAt t before scope

/-- Every method of a grammatical tree is analyzed. -/
theorem exists_flow (ht : t.Grammatical) (hm : m ∈ t.methods) (conditionUses : Bool) :
    ∃ flow, MethodFlow.analyze t.arena conditionUses m = .ok flow := by
  obtain ⟨id, body, hgraph, -⟩ := ht.exists_methodGraph hm
  obtain ⟨flow, hflow, -⟩ := MethodFlow.exists_analyze hgraph conditionUses
  exact ⟨flow, hflow⟩

/-- Every node of a grammatical tree has a scope. -/
theorem exists_scopeAt (ht : t.Grammatical) (p : MutationPlan) (id : Nat) :
    ∃ scope, p.ScopeAt t id scope := by
  by_cases hnone : ∀ m ∈ t.methods, ¬t.Below m id
  · exact ⟨none, .outside hnone⟩
  · push Not at hnone
    obtain ⟨m, hm, s, hs, hle, hlt⟩ := hnone
    obtain ⟨flow, hflow⟩ := exists_flow ht hm p.conditionUses
    exact ⟨_, .inside hm hs hle hlt hflow⟩

/-- **A node has one scope.** -/
theorem ScopeAt.unique (h : p.ScopeAt t id scope) (h' : p.ScopeAt t id scope')
    (ht : t.Grammatical) : scope = scope' := by
  cases h with
  | @inside m s flow hm hs hle hlt hflow =>
      cases h' with
      | @inside m' s' flow' hm' hs' hle' hlt' hflow' =>
          obtain rfl := ht.eq_of_below hm hm' ⟨s, hs, hle, hlt⟩ ⟨s', hs', hle', hlt'⟩
          rw [Option.some.inj (hs.symm.trans hs'), Except.ok.inj (hflow.symm.trans hflow')]
      | outside hnone => exact absurd ⟨s, hs, hle, hlt⟩ (hnone m hm)
  | outside hnone =>
      cases h' with
      | @inside m' s' flow' hm' hs' hle' hlt' hflow' =>
          exact absurd ⟨s', hs', hle', hlt'⟩ (hnone m' hm')
      | outside _ => rfl

/-- A node that is not a method is below the methods that the node before it is below, unless they
end there. -/
theorem below_before (hu : t.subtree? (id + 1) = some u) (hmethod : u.kind.isMethod = false)
    (hm : m ∈ t.methods) (hbelow : t.Below m (id + 1)) : t.Below m id := by
  obtain ⟨s, hs, hle, hlt⟩ := hbelow
  have hne : m ≠ id + 1 := by
    intro heq
    subst heq
    obtain ⟨s', hs', hmethod'⟩ := Tree.mem_methods.mp hm
    obtain rfl := Option.some.inj (hs'.symm.trans hu)
    rw [hmethod] at hmethod'
    cases hmethod'
  exact ⟨s, hs, by omega, by omega⟩

/-- A node that is not a method stays in the scope of the node before it, or leaves it. -/
theorem ScopeAt.next (h : p.ScopeAt t id scope) (ht : t.Grammatical)
    (hu : t.subtree? (id + 1) = some u) (hmethod : u.kind.isMethod = false) :
    p.ScopeAt t (id + 1) (scope.filter fun s => id + 1 < s.stop) := by
  cases h with
  | @inside m s flow hm hs hle hlt hflow =>
      by_cases hstop : id + 1 < m + s.size
      · rw [Option.filter_some, if_pos (decide_eq_true hstop)]
        exact .inside hm hs (by omega) hstop hflow
      · rw [Option.filter_some, if_neg (by simpa using hstop)]
        apply ScopeAt.outside
        intro m' hm' hbelow
        have hbefore := below_before hu hmethod hm' hbelow
        obtain rfl := ht.eq_of_below hm' hm hbefore ⟨s, hs, hle, hlt⟩
        exact hstop ((Tree.below_iff hs).mp hbelow).2
  | outside hnone =>
      apply ScopeAt.outside
      intro m hm hbelow
      exact hnone m hm (below_before hu hmethod hm hbelow)

/-- **Entering a node** with the scope of the node before it gives the scope at the node. -/
theorem ScopeBefore.enter (h : p.ScopeBefore t id scope) (ht : t.Grammatical)
    (hu : t.subtree? id = some u) :
    ∃ scope', p.enter t.arena scope id u = .ok scope' ∧ p.ScopeAt t id scope' := by
  unfold MutationPlan.enter
  by_cases hmethod : u.kind.isMethod = true
  · have hm := Tree.mem_methods.mpr ⟨u, hu, hmethod⟩
    obtain ⟨flow, hflow⟩ := exists_flow ht hm p.conditionUses
    have := Steps.size_pos u
    refine ⟨some ⟨id + u.size, flow⟩, ?_, .inside hm hu (Nat.le_refl id) (by omega) hflow⟩
    rw [if_pos hmethod, hflow]
  · rw [if_neg hmethod]
    rw [Bool.not_eq_true] at hmethod
    refine ⟨_, rfl, ?_⟩
    rcases h with ⟨rfl, rfl⟩ | ⟨before, rfl, hbefore⟩
    · apply ScopeAt.outside
      intro m hm hbelow
      -- Only the first node could be a method around it.
      obtain ⟨s, hs, hle, -⟩ := hbelow
      obtain rfl := Nat.le_zero.mp hle
      obtain ⟨s', hs', hmethod'⟩ := Tree.mem_methods.mp hm
      obtain rfl := Option.some.inj (hs'.symm.trans hu)
      rw [hmethod] at hmethod'
      cases hmethod'
    · exact hbefore.next ht hu hmethod

end MutationPlan

/-! ## Mutators -/

namespace Mutator

variable {m m' : Mutator} {ms : List Mutator} {flow : Option MethodFlow} {id : Nat} {kind : Kind}

/-- The mutator for nodes of a kind. -/
def ofKind? : Kind → Option Mutator
  | .binary _ => some binaryOperator
  | .postfixUnary _ => some postfixStep
  | .prefixUnary _ => some prefixOperator
  | .identifier _ => some identifierReplacement
  | kind => if isDeletable kind then some statementDeletion else none

/-- A mutator that applies to a node is that of the kind of the node. -/
theorem ofKind?_eq_some (h : m.applies flow id kind = true) : ofKind? kind = some m := by
  unfold applies at h
  split at h
  · rfl
  · rfl
  · rfl
  · cases kind <;> first | rfl | cases h
  · rfl
  · cases h

/-- **One mutator** at most applies to a node. -/
theorem eq_of_applies (h : m.applies flow id kind = true) (h' : m'.applies flow id kind = true) :
    m = m' :=
  Option.some.inj ((ofKind?_eq_some h).symm.trans (ofKind?_eq_some h'))

/-- The first mutator that applies to a node is the only one, so the order does not matter. -/
theorem first?_eq_some_iff :
    first? ms flow id kind = some m ↔ m ∈ ms ∧ m.applies flow id kind = true := by
  unfold first?
  constructor
  · intro h
    exact ⟨List.mem_of_find?_eq_some h, by simpa using List.find?_some h⟩
  · intro h
    cases hfirst : ms.find? fun m => m.applies flow id kind with
    | none => exact absurd h.2 (List.find?_eq_none.mp hfirst m h.1)
    | some m' =>
        have happlies : m'.applies flow id kind = true := by simpa using List.find?_some hfirst
        rw [eq_of_applies happlies h.2]

end Mutator

/-! ## Proposals -/

section Proposals

variable {p : MutationPlan} {t u : Tree} {id k : Nat} {scope : Option MethodScope}

/-- The operator of a postfix expression of a conforming tree steps. -/
theorem Conforms.isStep {s : Symbol} (h : Conforms s t) {op : UnaryOp}
    (hkind : t.kind = .postfixUnary op) : op.isStep = true := by
  obtain @⟨_, d, ss, cs, rule, -, -⟩ := h
  change d.kind = _ at hkind
  rw [hkind] at rule
  cases rule with
  | postfixUnary hstep _ => exact hstep

/-- What an analysis covers has reaching definitions. -/
theorem MethodFlow.exists_reachingDefinitions (ht : t.Grammatical) {conditionUses : Bool} {m : Nat}
    {flow : MethodFlow} (hflow : MethodFlow.analyze t.arena conditionUses m = .ok flow)
    (hcovers : flow.covers id = true) : ∃ facts, flow.reachingDefinitions id = .ok facts := by
  obtain ⟨use, huse⟩ := Option.isSome_iff_exists.mp hcovers
  have hanalysis := isAnalysis hflow
  obtain ⟨into, hinto, -⟩ := hanalysis.exists_reachingIn? (ht.closed_of_analyze hflow)
    (indexesOnly_useIndex t.arena _ _ _ (hanalysis.uses ▸ huse))
  refine ⟨into, ?_⟩
  rw [reachingDefinitions, huse, Option.bind_some, hinto]

/-- **A mutator that applies to a node** makes its rewrites. -/
theorem Mutator.exists_rewrites (ht : t.Grammatical) (hu : t.subtree? id = some u)
    {flow : Option MethodFlow}
    (hflow : ∀ f ∈ flow, ∃ conditionUses m, MethodFlow.analyze t.arena conditionUses m = .ok f)
    {m : Mutator} (happlies : m.applies flow id u.kind = true) :
    ∃ made, m.rewrites t.arena flow id u = .ok made := by
  unfold applies at happlies
  unfold rewrites
  split at happlies
  · exact ⟨_, rfl⟩
  · rename_i op hkind
    obtain ⟨s, hconforms⟩ := ht.of_mem_subtrees (List.mem_of_getElem? hu)
    have hstep := hconforms.isStep hkind
    cases op <;> first | exact ⟨_, rfl⟩ | cases hstep
  · rename_i op _
    cases op <;> exact ⟨_, rfl⟩
  · exact ⟨_, if_pos happlies⟩
  · obtain ⟨f, rfl, hcovers⟩ := (Option.any_eq_true _ _).mp happlies
    obtain ⟨conditionUses, m, hanalyze⟩ := hflow f rfl
    obtain ⟨facts, hfacts⟩ := MethodFlow.exists_reachingDefinitions ht hanalyze hcovers
    dsimp only
    rw [identifierRewrites, hfacts]
    exact ⟨_, rfl⟩
  · cases happlies

namespace MutationPlan

/-- The flow in a scope is that of a method. -/
theorem ScopeAt.exists_analyze (h : p.ScopeAt t id scope) :
    ∀ f ∈ scope.map MethodScope.flow, ∃ conditionUses m,
      MethodFlow.analyze t.arena conditionUses m = .ok f := by
  intro f hf
  cases h with
  | @inside m _ flow _ _ _ _ hflow =>
      obtain rfl := Option.some.inj hf
      exact ⟨p.conditionUses, m, hflow⟩
  | outside _ => cases hf

/-- There are proposals for every node in its scope. -/
theorem exists_proposalsAt (ht : t.Grammatical) (h : p.ScopeAt t id scope)
    (hu : t.subtree? id = some u) :
    ∃ rs, p.proposalsAt t.arena (scope.map MethodScope.flow) id u = .ok rs := by
  unfold proposalsAt
  cases hfirst : Mutator.first? p.mutators (scope.map MethodScope.flow) id u.kind with
  | none => exact ⟨[], rfl⟩
  | some m =>
      obtain ⟨-, happlies⟩ := Mutator.first?_eq_some_iff.mp hfirst
      obtain ⟨made, hmade⟩ := Mutator.exists_rewrites ht hu h.exists_analyze happlies
      dsimp only
      rw [hmade]
      exact ⟨_, rfl⟩

/-- **The walk along the nodes** makes the proposals for each node in its scope, in turn. -/
theorem proposalsFrom_eq (ht : t.Grammatical) {made : Nat → List Proposal}
    (hmade : ∀ id scope u, p.ScopeAt t id scope → t.subtree? id = some u →
      p.proposalsAt t.arena (scope.map MethodScope.flow) id u = .ok (made id))
    {us : List Tree} (hus : ∀ j, us[j]? = t.subtree? (k + j)) (hscope : p.ScopeBefore t k scope) :
    p.proposalsFrom t.arena scope ((us.zipIdx k).map fun (s, id) => (id, s)) =
      .ok ((List.range' k us.length).flatMap made) := by
  induction us generalizing k scope with
  | nil => rfl
  | cons u us ih =>
      have hu : t.subtree? k = some u := (hus 0).symm
      obtain ⟨scope', henter, hscope'⟩ := hscope.enter ht hu
      have hus' : ∀ j, us[j]? = t.subtree? (k + 1 + j) := by
        intro j
        rw [Nat.add_right_comm]
        exact hus (j + 1)
      have hlater := ih hus' (.inr ⟨k, rfl, hscope'⟩)
      rw [List.zipIdx_cons, List.map_cons, proposalsFrom, henter]
      simp only [bind, Except.bind]
      rw [hmade k scope' u hscope' hu, hlater]
      rfl

/-- **The proposals for a document** are those for each node, in preorder, and then in the order of
the mutator; a node below a method has the flow of that method, and any other node has none. -/
theorem exists_proposals (ht : t.Grammatical) (p : MutationPlan) :
    ∃ (flowAt : Nat → Option MethodFlow) (made : Nat → List Proposal),
      (∀ m ∈ t.methods, ∃ flow, MethodFlow.analyze t.arena p.conditionUses m = .ok flow ∧
        ∀ id, t.Below m id → flowAt id = some flow) ∧
      (∀ id, (∀ m ∈ t.methods, ¬t.Below m id) → flowAt id = none) ∧
      (∀ id u, t.subtree? id = some u → p.proposalsAt t.arena (flowAt id) id u = .ok (made id)) ∧
      p.proposalsFrom t.arena none t.numbered = .ok ((List.range t.size).flatMap made) := by
  choose scopeAt hscope using exists_scopeAt ht p
  have hmade : ∀ id, ∃ rs, ∀ u, t.subtree? id = some u →
      p.proposalsAt t.arena ((scopeAt id).map MethodScope.flow) id u = .ok rs := by
    intro id
    cases hu : t.subtree? id with
    | none => exact ⟨[], nofun⟩
    | some u =>
        obtain ⟨rs, hrs⟩ := exists_proposalsAt ht (hscope id) hu
        refine ⟨rs, ?_⟩
        intro u' hu'
        rwa [← Option.some.inj hu']
  choose made hmade using hmade
  refine ⟨fun id => (scopeAt id).map MethodScope.flow, made, ?_, ?_, hmade, ?_⟩
  · intro m hm
    obtain ⟨flow, hflow⟩ := exists_flow ht hm p.conditionUses
    refine ⟨flow, hflow, ?_⟩
    intro id hbelow
    obtain ⟨s, hs, hle, hlt⟩ := hbelow
    dsimp only
    rw [(hscope id).unique (.inside hm hs hle hlt hflow) ht]
    rfl
  · intro id hnone
    dsimp only
    rw [(hscope id).unique (.outside hnone) ht]
    rfl
  · have hscoped : ∀ id scope u, p.ScopeAt t id scope → t.subtree? id = some u →
        p.proposalsAt t.arena (scope.map MethodScope.flow) id u = .ok (made id) := by
      intro id scope u hhere hu
      rw [hhere.unique (hscope id) ht]
      exact hmade id u hu
    have hsubtrees : ∀ j, t.subtrees[j]? = t.subtree? (0 + j) := by
      intro j
      rw [Nat.zero_add, Tree.subtree?]
    have hwalk := proposalsFrom_eq ht hscoped hsubtrees (.inl ⟨rfl, rfl⟩)
    rw [Tree.length_subtrees, ← List.range_eq_range'] at hwalk
    exact hwalk

end MutationPlan

end Proposals

end SharpMutants
