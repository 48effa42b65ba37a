import SharpMutants.Proofs.Dataflow.UseDef
import SharpMutants.Proofs.Numbering

/-!
# The indexes of a method are exact

What is below the body of a method and not below a step is a statement that others are part of:
a block, an `if` with its `else`, or a loop (`Steps.Statement.held`).  So every identifier
of the body is below a step, and below one only, since the steps share no nodes.  With that the
two indexes answer for just the identifiers of the body and just the places of definitions, each
with what holds at its one step (`MethodFlow.Exact`).
-/

namespace SharpMutants

namespace Steps

/-- What is executed in parts: other nodes are executed as a whole or within a step. -/
def compound : Kind → Bool
  | .block | .ifStatement | .elseClause | .whileStatement | .forStatement => true
  | _ => false

variable {root t : Tree} {id i k : Nat}

/-- A node with some children is the node, or below one of them. -/
theorem below_children {d : Node} {cs : List Tree} (hid : root.subtree? id = some (.node d cs))
    (hi : root.Below id i) : i = id ∨ ∃ k ∈ Tree.numbersFrom (id + 1) cs, root.Below k i := by
  rcases Tree.below_cases hid hi with rfl | ⟨k, hk, hki⟩
  · exact .inl rfl
  · rw [Arena.IsChild, Arena.childrenOf_arena hid] at hk
    exact .inr ⟨k, hk, hki⟩

/-- A node is below one of some steps, or executed in parts. -/
def Held (root : Tree) (ss : List Nat) (i : Nat) : Prop :=
  (∃ n ∈ ss, root.Below n i) ∨ ∃ s, root.subtree? i = some s ∧ compound s.kind = true

theorem Held.mono {ss ss' : List Nat} (h : Held root ss i) (hss : ss ⊆ ss') : Held root ss' i :=
  h.imp_left fun ⟨n, hn, hni⟩ => ⟨n, hss hn, hni⟩

/-- A node below a step is held. -/
theorem held_of_mem {n : Nat} {ss : List Nat} (hn : n ∈ ss) (hni : root.Below n i) :
    Held root ss i := .inl ⟨n, hn, hni⟩

/-- A node that is executed in parts is held. -/
theorem held_of_kind {d : Node} {cs : List Tree} {ss : List Nat}
    (hi : root.subtree? i = some (.node d cs)) (hkind : compound d.kind = true) :
    Held root ss i := .inr ⟨_, hi, hkind⟩

/-- **What a statement has below it** is below a step, or executed in parts. -/
theorem Statement.held (h : Statement t) (hid : root.subtree? id = some t)
    (hi : root.Below id i) : Held root (steps id t) i := by
  induction h generalizing id with
  | @block d cs hkind parts ih =>
      rcases Tree.below_cases hid hi with rfl | ⟨k, hk, hki⟩
      · exact held_of_kind hid (by rw [hkind]; rfl)
      · obtain ⟨ls, c, rs, hcs, rfl⟩ := (Arena.isChild_iff hid).mp hk
        obtain rfl : cs = ls ++ c :: rs := hcs
        have hc : c ∈ ls ++ c :: rs := List.mem_append_right _ List.mem_cons_self
        refine (ih c hc (Tree.subtree?_child hid rfl) hki).mono fun n hn => ?_
        rw [steps_block hkind]
        exact mem_stepsOf.mpr ⟨ls, c, rs, rfl, hn⟩
  | plain hkind hinert =>
      rw [steps_plain hkind hinert]
      exact held_of_mem List.mem_cons_self hi
  | returns hkind hinert =>
      rw [steps_return hkind hinert]
      exact held_of_mem List.mem_cons_self hi
  | @ifThen d cond body hkind hcond hbody ih =>
      obtain ⟨-, hbodyId⟩ := Tree.subtree?_children hid
      rw [steps_ifThen hkind hcond]
      rcases below_children hid hi with rfl | ⟨k, hk, hki⟩
      · exact held_of_kind hid (by rw [hkind]; rfl)
      · simp only [Tree.numbersFrom_cons, Tree.numbersFrom_nil, List.mem_cons, List.not_mem_nil,
          or_false] at hk
        rcases hk with rfl | rfl
        · exact held_of_mem List.mem_cons_self hki
        · exact (ih hbodyId hki).mono (List.subset_cons_self _ _)
  | @ifElse d e cond body other hkind helse hcond hbody hother ihBody ihOther =>
      obtain ⟨-, hbodyId, hclauseId⟩ := Tree.subtree?_children hid
      have hotherId : root.subtree? (id + 1 + cond.size + body.size + 1) = some other :=
        Tree.subtree?_children hclauseId
      rw [steps_ifElse hkind helse hcond]
      rcases below_children hid hi with rfl | ⟨k, hk, hki⟩
      · exact held_of_kind hid (by rw [hkind]; rfl)
      · simp only [Tree.numbersFrom_cons, Tree.numbersFrom_nil, List.mem_cons, List.not_mem_nil,
          or_false] at hk
        rcases hk with rfl | rfl | rfl
        · exact held_of_mem List.mem_cons_self hki
        · exact (ihBody hbodyId hki).mono
            (List.subset_cons_of_subset _ (List.subset_append_left _ _))
        · rcases below_children hclauseId hki with rfl | ⟨k, hk, hki⟩
          · exact held_of_kind hclauseId (by rw [helse]; rfl)
          · simp only [Tree.numbersFrom_cons, Tree.numbersFrom_nil, List.mem_cons,
              List.not_mem_nil, or_false] at hk
            subst hk
            exact (ihOther hotherId hki).mono
              (List.subset_cons_of_subset _ (List.subset_append_right _ _))
  | @whileLoop d cond body hkind hcond hbody ih =>
      obtain ⟨-, hbodyId⟩ := Tree.subtree?_children hid
      rw [steps_while hkind hcond]
      rcases below_children hid hi with rfl | ⟨k, hk, hki⟩
      · exact held_of_kind hid (by rw [hkind]; rfl)
      · simp only [Tree.numbersFrom_cons, Tree.numbersFrom_nil, List.mem_cons, List.not_mem_nil,
          or_false] at hk
        rcases hk with rfl | rfl
        · exact held_of_mem List.mem_cons_self hki
        · exact (ih hbodyId hki).mono (List.subset_cons_self _ _)
  | @forLoop d init cond increment body hkind hinit hcond hincrement hbody ih =>
      obtain ⟨-, -, -, hbodyId⟩ := Tree.subtree?_children hid
      rw [steps_for hkind hinit hcond hincrement]
      rcases below_children hid hi with rfl | ⟨k, hk, hki⟩
      · exact held_of_kind hid (by rw [hkind]; rfl)
      · simp only [Tree.numbersFrom_cons, Tree.numbersFrom_nil, List.mem_cons, List.not_mem_nil,
          or_false] at hk
        rcases hk with rfl | rfl | rfl | rfl
        · exact held_of_mem (by simp) hki
        · exact held_of_mem (by simp) hki
        · exact held_of_mem (by simp) hki
        · exact (ih hbodyId hki).mono (List.subset_append_right _ _)

/-- Identifiers are below steps. -/
theorem Statement.exists_step_of_name (h : Statement t) (hid : root.subtree? id = some t) {x : Fact}
    (hx : root.NameBelow id x) : ∃ n ∈ steps id t, root.Below n x.site := by
  refine (h.held hid hx.1).resolve_right fun ⟨s, hs, hkind⟩ => ?_
  have hname := hx.2
  rw [Arena.kind?_eq, hs, Option.map_some, Option.some.injEq] at hname
  rw [hname] at hkind
  cases hkind

end Steps

namespace MethodFlow

variable {t : Tree} {flow : MethodFlow} {conditionUses : Bool} {method id i n site : Nat}
  {name : String} {x : Fact}

/-- The indexes of a method with its body at a node are exact. -/
structure Exact (flow : MethodFlow) (t : Tree) (id : Nat) : Prop where
  /-- Different steps share no nodes. -/
  separate : flow.graph.Separate t
  /-- Each identifier of the body is in just one step. -/
  one_step : ∀ x, t.NameBelow id x → ∃! n, n ∈ flow.graph.nodes ∧ t.Below n x.site
  /-- This is the step of the identifier, and other nodes have none. -/
  stepOfUse?_eq_some : ∀ i n, flow.stepOfUse? i = some n ↔
    (∃ name, t.NameBelow id ⟨i, name⟩) ∧ n ∈ flow.graph.nodes ∧ t.Below n i
  covers : ∀ i, flow.covers i = true ↔ ∃ name, t.NameBelow id ⟨i, name⟩
  /-- What reaches an identifier is what holds at the start of its step. -/
  reaching : ∀ i name, t.NameBelow id ⟨i, name⟩ → ∃ n facts, flow.stepOfUse? i = some n ∧
    flow.reachingIn? n = some facts ∧ flow.reachingDefinitions i = .ok facts ∧
      flow.definitionsOfUse i = .ok (facts.named name)
  reaching_error : ∀ i, (¬∃ name, t.NameBelow id ⟨i, name⟩) →
    flow.reachingDefinitions i = .error (.unanalyzedNode i) ∧
      flow.definitionsOfUse i = .error (.unanalyzedNode i)
  /-- Each definition is made in just one step. -/
  one_definition : ∀ x ∈ flow.definitions, ∃! n, n ∈ flow.graph.nodes ∧ t.Below n x.site
  /-- What is live behind a definition is what holds at the end of its step. -/
  live : ∀ x ∈ flow.definitions, ∃ n facts, n ∈ flow.graph.nodes ∧ t.Below n x.site ∧
    flow.liveOut? n = some facts ∧ flow.liveOutOf x.site = .ok facts
  live_error : ∀ site, (∀ x ∈ flow.definitions, x.site ≠ site) →
    flow.liveOutOf site = .error (.unanalyzedNode site)

/-- The queries about a known use answer with the facts before its step, or with those of them
about its name. -/
theorem reachingDefinitions_ok {facts : Facts} (huse : flow.uses[i]? = some ⟨n, name⟩)
    (hfacts : flow.reachingIn? n = some facts) : flow.reachingDefinitions i = .ok facts ∧
      flow.definitionsOfUse i = .ok (facts.named name) := by
  have hreaching : flow.reachingDefinitions i = .ok facts := by
    rw [reachingDefinitions, huse, Option.bind_some, hfacts]
  refine ⟨hreaching, ?_⟩
  rw [definitionsOfUse, huse]
  dsimp only
  rw [hreaching]
  rfl

/-- The queries about a node that is no known use are refused. -/
theorem reachingDefinitions_error (huse : flow.uses[i]? = none) :
    flow.reachingDefinitions i = .error (.unanalyzedNode i) ∧
      flow.definitionsOfUse i = .error (.unanalyzedNode i) := by
  rw [reachingDefinitions, definitionsOfUse, huse]
  exact ⟨rfl, rfl⟩

section Analysis

variable (h : flow.IsAnalysis t.arena conditionUses method) (hseparate : flow.graph.Separate t)

include h hseparate

/-- The index of identifiers has the names below the steps. -/
theorem getElem?_uses : flow.uses[i]? = some ⟨n, name⟩ ↔
    n ∈ flow.graph.nodes ∧ t.NameBelow n ⟨i, name⟩ := by
  rw [h.uses, getElem?_useIndex hseparate]

/-- The index of definitions has the places of the definitions. -/
theorem getElem?_definitionSteps : flow.definitionSteps[site]? = some n ↔
    n ∈ flow.graph.nodes ∧ ∃ name, ⟨site, name⟩ ∈ t.arena.definitionsAt n := by
  rw [h.definitionSteps, getElem?_definitionIndex hseparate]

omit hseparate in
/-- The definitions of a method are those that its steps make. -/
theorem mem_definitions : x ∈ flow.definitions ↔
    ∃ n ∈ flow.graph.nodes, x ∈ t.arena.definitionsAt n := by
  rw [h.definitions, FactSet.mem_unions]
  constructor
  · rintro ⟨facts, hfacts, hx⟩
    obtain ⟨n, hn, rfl⟩ := List.mem_map.mp hfacts
    exact ⟨n, hn, (Variables.mem_factsAt hn).mp hx⟩
  · rintro ⟨n, hn, hx⟩
    exact ⟨_, List.mem_map_of_mem hn, (Variables.mem_factsAt hn).mpr hx⟩

/-- **The indexes are exact** if each identifier of the body is in a step, and each step is in the
body. -/
theorem exact (hclosed : flow.graph.Closed)
    (hsome : ∀ x, t.NameBelow id x → ∃ n ∈ flow.graph.nodes, t.Below n x.site)
    (hwithin : ∀ n ∈ flow.graph.nodes, t.Below id n) : flow.Exact t id := by
  have hindex : ∀ {i name}, t.NameBelow id ⟨i, name⟩ →
      ∃ n ∈ flow.graph.nodes, t.Below n i ∧ flow.uses[i]? = some ⟨n, name⟩ := by
    intro i name hname
    obtain ⟨n, hn, hni⟩ := hsome _ hname
    exact ⟨n, hn, hni, (getElem?_uses h hseparate).mpr ⟨hn, hni, hname.2⟩⟩
  have hnames : ∀ {i n name}, flow.uses[i]? = some ⟨n, name⟩ →
      n ∈ flow.graph.nodes ∧ t.Below n i ∧ t.NameBelow id ⟨i, name⟩ := by
    intro i n name huse
    obtain ⟨hn, hname⟩ := (getElem?_uses h hseparate).mp huse
    exact ⟨hn, hname.1, (hwithin n hn).name hname⟩
  have hmade : ∀ x ∈ flow.definitions, ∃ n ∈ flow.graph.nodes, t.Below n x.site ∧
      flow.definitionSteps[x.site]? = some n := by
    intro x hx
    obtain ⟨n, hn, hx⟩ := (mem_definitions h).mp hx
    exact ⟨n, hn, Variables.below_of_mem_definitionsAt hx,
      (getElem?_definitionSteps h hseparate).mpr ⟨hn, x.name, hx⟩⟩
  refine ⟨hseparate, ?_, ?_, ?_, ?_, ?_, ?_, ?_, ?_⟩
  · intro x hx
    obtain ⟨n, hn, hni⟩ := hsome x hx
    exact ⟨n, ⟨hn, hni⟩, fun m hm => hseparate m hm.1 n hn x.site hm.2 hni⟩
  · intro i n
    rw [stepOfUse?, Option.map_eq_some_iff]
    constructor
    · rintro ⟨⟨step, name⟩, huse, rfl⟩
      obtain ⟨hn, hni, hname⟩ := hnames huse
      exact ⟨⟨name, hname⟩, hn, hni⟩
    · rintro ⟨⟨name, hname⟩, hn, hni⟩
      obtain ⟨m, hm, hmi, huse⟩ := hindex hname
      exact ⟨_, huse, hseparate m hm n hn i hmi hni⟩
  · intro i
    rw [covers, Option.isSome_iff_exists]
    constructor
    · rintro ⟨⟨n, name⟩, huse⟩
      exact ⟨name, (hnames huse).2.2⟩
    · rintro ⟨name, hname⟩
      obtain ⟨n, -, -, huse⟩ := hindex hname
      exact ⟨_, huse⟩
  · intro i name hname
    obtain ⟨n, hn, -, huse⟩ := hindex hname
    obtain ⟨facts, hfacts, -⟩ := h.exists_reachingIn? hclosed hn
    refine ⟨n, facts, ?_, hfacts, reachingDefinitions_ok huse hfacts⟩
    rw [stepOfUse?, huse, Option.map_some]
  · intro i hnone
    apply reachingDefinitions_error
    cases huse : flow.uses[i]? with
    | none => rfl
    | some use => exact absurd ⟨use.name, (hnames huse).2.2⟩ hnone
  · intro x hx
    obtain ⟨n, hn, hni, -⟩ := hmade x hx
    exact ⟨n, ⟨hn, hni⟩, fun m hm => hseparate m hm.1 n hn x.site hm.2 hni⟩
  · intro x hx
    obtain ⟨n, hn, hni, hstep⟩ := hmade x hx
    obtain ⟨facts, hfacts, -⟩ := h.exists_liveOut? hclosed hn
    refine ⟨n, facts, hn, hni, hfacts, ?_⟩
    rw [liveOutOf, hstep, Option.bind_some, hfacts]
  · intro site hnone
    cases hstep : flow.definitionSteps[site]? with
    | none =>
        rw [liveOutOf, hstep]
        rfl
    | some n =>
        obtain ⟨hn, name, hx⟩ := (getElem?_definitionSteps h hseparate).mp hstep
        exact absurd rfl (hnone _ ((mem_definitions h).mpr ⟨n, hn, hx⟩))

end Analysis

end MethodFlow

/-- **The indexes of every method are exact.**  Each identifier of the body is in one step, whose
facts it is given, and so is each place of a definition; for other nodes there are no facts. -/
theorem exists_exact_analysis {source : Text} {d : Document} (h : parse source = .ok d) {m : Nat}
    (hm : m ∈ d.tree.methods) (conditionUses : Bool) :
    ∃ flow id body, MethodFlow.analyze d.arena conditionUses m = .ok flow ∧
      d.methodBody? m = some (id, body) ∧ d.tree.subtree? id = some body ∧
      flow.Exact d.tree id := by
  obtain ⟨id, body, hbodyId, hid, hbody, hgraph⟩ := exists_methodBody h hm
  obtain ⟨flow, hflow, hg, -, -⟩ := MethodFlow.exists_analyze hgraph conditionUses
  refine ⟨flow, id, body, hflow, hbodyId, hid, ?_⟩
  have hnodes : ∀ n, n ∈ flow.graph.nodes ↔ n ∈ Steps.steps id body :=
    fun n => hg ▸ hbody.mem_nodes_graph
  refine MethodFlow.exact (MethodFlow.isAnalysis hflow) (hg ▸ hbody.separate hid)
    (hg ▸ hbody.closed_graph) (fun x hx => ?_) fun n hn => ?_
  · obtain ⟨n, hn, hni⟩ := hbody.exists_step_of_name hid hx
    exact ⟨n, (hnodes n).mpr hn, hni⟩
  · exact (Tree.below_iff hid).mpr (hbody.range id n ((hnodes n).mp hn))

/-- A nested assignment, dead code and the head of a loop are parts of one step each. -/
theorem exists_exact_analysis_return : ∃ d flow id body,
    parse "class C { int M(int a) { for (int i = a; i < 3; i++) return i; a = i = 1; } }".toList =
        .ok d ∧
      MethodFlow.analyze d.arena true 2 = .ok flow ∧ d.methodBody? 2 = some (id, body) ∧
      flow.Exact d.tree id ∧ flow.stepOfUse? 13 = some 12 ∧ flow.stepOfUse? 20 = some 16 := by
  have hread : (parse
      "class C { int M(int a) { for (int i = a; i < 3; i++) return i; a = i = 1; } }".toList
      ).toOption.any (fun d => d.tree.methods.contains 2 &&
          (MethodFlow.analyze d.arena true 2).toOption.all fun flow =>
            flow.stepOfUse? 13 == some 12 && flow.stepOfUse? 20 == some 16) = true := by
    decide +kernel
  obtain ⟨d, hd, hfacts⟩ := exists_document_of_any hread
  rw [Bool.and_eq_true] at hfacts
  obtain ⟨hmethod, hfacts⟩ := hfacts
  obtain ⟨flow, id, body, hflow, hbody, -, hexact⟩ :=
    exists_exact_analysis hd (m := 2) (List.contains_iff_mem.mp hmethod) true
  rw [hflow] at hfacts
  simp only [Except.toOption, Option.all_some, Bool.and_eq_true, beq_iff_eq] at hfacts
  exact ⟨d, flow, id, body, hd, hflow, hbody, hexact, hfacts.1, hfacts.2⟩

/-- A use is not given what else holds at the start of its step: the definitions of other
variables. -/
theorem definitionsOfUse_ne_reachingIn : ∃ d flow n facts,
    parse "class C { void M() { int x = 0; int y = 1; y = x; } }".toList = .ok d ∧
      MethodFlow.analyze d.arena false 2 = .ok flow ∧ flow.stepOfUse? 15 = some n ∧
      flow.reachingIn? n = some facts ∧ flow.definitionsOfUse 15 ≠ .ok facts.toList := by
  have hread : (parse
      "class C { void M() { int x = 0; int y = 1; y = x; } }".toList).toOption.any
        (fun d => (MethodFlow.analyze d.arena false 2).toOption.any fun flow =>
          flow.stepOfUse? 15 == some 12 && (flow.reachingIn? 12).any fun facts =>
            decide (flow.definitionsOfUse 15 ≠ .ok facts.toList)) = true := by
    decide +kernel
  obtain ⟨d, hd, hfacts⟩ := exists_document_of_any hread
  obtain ⟨flow, hflow, hfacts⟩ := exists_ok_of_any hfacts
  rw [Bool.and_eq_true, beq_iff_eq, Option.any_eq_true] at hfacts
  obtain ⟨hstep, facts, hfacts, hne⟩ := hfacts
  exact ⟨d, flow, 12, facts, hd, hflow, hstep, hfacts, of_decide_eq_true hne⟩

end SharpMutants
