import SharpMutants.Proofs.Dataflow.Accesses
import SharpMutants.Proofs.Numbering

/-!
# What the analyses of a method cover

A step stands for its first assignment, whatever else it assigns, and whether the
assignment is evaluated or not.  So of the definitions that an execution makes, reaching
definitions cover those that their steps stand for, as long as no other step stands for an
assignment to the variable that it skips: `reachingDefinitions_cover`.  Of the names that an execution
reads, live variables cover those that their steps count, with the same proviso:
`liveUses_cover`.  Neither proviso can be dropped: `exists_uncovered_definitions`,
`exists_uncovered_reads`.
-/

namespace SharpMutants

namespace Arena

/-- The first assignment of a step, in the order of the nodes. -/
def firstAssignment? (a : Arena) (step : Nat) : Option (Nat × Tree) :=
  (a.subtree? step).bind (Variables.firstAssignment? step)

/-- The variable to which the first assignment of a step is. -/
def firstTarget? (a : Arena) (step : Nat) : Option String :=
  (a.firstAssignment? step).bind fun first => first.2.children.head?.bind Variables.nameOf?

/-- A step counts what is read at a node: the step is a condition, or has no assignment, or the
node is in the value of its first assignment, or in the target if that is compound. -/
def Counts (a : Arena) (step i : Nat) : Prop :=
  a.isCondition step = true ∨ ∀ site t, a.firstAssignment? step = some (site, t) →
    ∃ place c, (a.childrenOf site)[place]? = some c ∧ i ∈ a.descendants c ∧
      (place = 1 ∨ place = 0 ∧ ∃ op, t.kind = .assignment op ∧ op.isCompound = true)

end Arena

namespace Trace

/-- The latest write to a variable was a definition by a step, and some steps were executed
since. -/
def LastDefined (history : History) (x : String) (site step : Nat) (since : List Nat) : Prop :=
  ∃ earlier before after later, history = earlier ++ (step, before ++ .defines site x :: after) :: later ∧
    Keeps x after ∧ (∀ p ∈ later, Keeps x p.2) ∧ later.map Prod.fst = since

/-- After a step a variable is read at a node of another one, without a write in between, and some
steps were executed between the two. -/
def ReadAfter (history : History) (x : String) (n i step : Nat) (between : List Nat) : Prop :=
  ∃ earlier acc middle before after later,
    history = earlier ++ (n, acc) :: (middle ++ (step, before ++ .reads i x :: after) :: later) ∧
      Keeps x before ∧ (∀ p ∈ middle, Keeps x p.2) ∧ middle.map Prod.fst = between

section Steps

variable {root t : Tree} {step i site : Nat} {x : String} {acc : List Access}

/-! ## What a step stands for -/

/-- The first assignment of a step is an assignment expression. -/
theorem kind_of_firstAssignment? {u : Tree}
    (h : Variables.firstAssignment? step t = some (site, u)) : ∃ op, u.kind = .assignment op := by
  obtain ⟨⟨v, m⟩, -, hfound⟩ := List.exists_of_findSome?_eq_some h
  dsimp only at hfound
  split at hfound
  · rename_i op hkind
    obtain ⟨rfl, rfl⟩ := Prod.mk.inj (Option.some.inj hfound)
    exact ⟨op, hkind⟩
  · cases hfound

/-- A subtree with an assignment has a first one. -/
theorem exists_firstAssignment? (hstep : root.subtree? step = some t)
    (hbelow : root.Below step site) (hassigns : Assigns root site x) :
    ∃ first, Variables.firstAssignment? step t = some first := by
  obtain ⟨u, op, hu, hkind, -⟩ := hassigns
  obtain ⟨hle, hlt⟩ := (Tree.below_iff hstep).mp hbelow
  have hsub := Tree.subtree?_add hstep (k := site - step) (by omega)
  rw [show step + (site - step) = site by omega, hu] at hsub
  rw [← Option.isSome_iff_exists, Variables.firstAssignment?, List.findSome?_isSome_iff]
  refine ⟨(u, site), List.mem_zipIdx_iff_le_and_getElem?_sub.mpr ⟨hle, hsub.symm⟩, ?_⟩
  dsimp only
  rw [hkind]
  rfl

/-- **A step generates** the definition that it makes, if its first assignment is no other. -/
theorem Performs.mem_definitionsAt (h : Performs step t acc) (hstep : root.subtree? step = some t)
    (he : .defines site x ∈ acc)
    (hfirst : ∀ first, root.arena.firstAssignment? step = some first → first.1 = site) :
    ⟨site, x⟩ ∈ root.arena.definitionsAt step := by
  rw [Arena.firstAssignment?, Arena.subtree?_arena, hstep, Option.bind_some] at hfirst
  rw [Arena.definitionsAt, Arena.subtree?_arena, hstep]
  dsimp only
  rw [Variables.definitions]
  rcases h.defines hstep he with ⟨hbelow, hassigns⟩ | ⟨rfl, n, u, hdeclaration, hx⟩
  · obtain ⟨⟨m, v⟩, hfound⟩ := exists_firstAssignment? hstep hbelow hassigns
    obtain rfl : m = site := hfirst _ hfound
    obtain ⟨u, op, hu, -, hname⟩ := hassigns
    obtain ⟨hv, -⟩ := Variables.below_of_firstAssignment? hstep hfound
    obtain rfl := Option.some.inj (hu.symm.trans hv)
    rw [hfound]
    dsimp only
    rw [hname, FactSet.mem_ofList]
    exact List.mem_singleton_self _
  · -- A declaration is no assignment.
    have hnone : Variables.firstAssignment? site t = none := by
      cases hfound : Variables.firstAssignment? site t with
      | none => rfl
      | some first =>
          obtain ⟨m, v⟩ := first
          obtain rfl : m = site := hfirst _ hfound
          obtain ⟨op, hkind⟩ := kind_of_firstAssignment? hfound
          obtain ⟨hv, -⟩ := Variables.below_of_firstAssignment? hstep hfound
          obtain rfl := Option.some.inj (hstep.symm.trans hv)
          rw [Variables.declaration?, hkind] at hdeclaration
          cases hdeclaration
    rw [hnone, hdeclaration]
    dsimp only
    rw [FactSet.mem_ofList]
    exact List.mem_map_of_mem hx

/-- **A step that keeps a variable and is taken to define it** has a first assignment to it. -/
theorem Performs.firstTarget?_eq (h : Performs step t acc) (hstep : root.subtree? step = some t)
    (hkeeps : Keeps x acc) (hdefines : root.arena.Defines step x) :
    root.arena.firstTarget? step = some x := by
  obtain ⟨y, hy, rfl⟩ := hdefines
  rw [Arena.definitionsAt, Arena.subtree?_arena, hstep] at hy
  dsimp only at hy
  rw [Variables.definitions] at hy
  rw [Arena.firstTarget?, Arena.firstAssignment?, Arena.subtree?_arena, hstep, Option.bind_some]
  split at hy
  · rename_i site v hfound
    rw [hfound, Option.bind_some]
    split at hy
    · rename_i name hname
      rw [FactSet.mem_ofList, List.mem_singleton] at hy
      rw [hy, hname]
    · exact absurd hy FactSet.not_mem_empty
  · split at hy
    · rename_i hdeclaration
      rw [FactSet.mem_ofList, List.mem_map] at hy
      obtain ⟨name, hname, rfl⟩ := hy
      exact absurd rfl (hkeeps _ (h.defines_of_declaredNames hstep hdeclaration hname))
    · exact absurd hy FactSet.not_mem_empty

/-- The names in the value of an assignment are uses, and those in the target of a compound one. -/
theorem mem_assignmentUses {place c : Nat} (hsite : root.subtree? site = some t)
    (hplace : (root.arena.childrenOf site)[place]? = some c) (hi : i ∈ root.arena.descendants c)
    (hname : root.arena.kind? i = some (.identifier x))
    (hused : place = 1 ∨ place = 0 ∧ ∃ op, t.kind = .assignment op ∧ op.isCompound = true) :
    ⟨i, x⟩ ∈ Variables.assignmentUses site t := by
  rw [Arena.childrenOf_arena hsite, Tree.numbersFrom, List.getElem?_map,
    Option.map_eq_some_iff] at hplace
  obtain ⟨⟨m, u⟩, hpart, rfl⟩ := hplace
  obtain ⟨hu, -⟩ := Tree.below_of_mem_numberFrom hsite (List.mem_of_getElem? hpart)
  have hmem : ⟨i, x⟩ ∈ Variables.identifiersIn m u := by
    rw [Variables.mem_identifiersIn hu]
    rw [Arena.descendants_arena hu, List.mem_range'_1] at hi
    exact ⟨(Tree.below_iff hu).mpr hi, hname⟩
  rw [Variables.assignmentUses]
  generalize Tree.numberFrom (site + 1) t.children = parts at hpart ⊢
  rcases hused with rfl | ⟨rfl, op, hkind, hop⟩
  · rcases parts with _ | ⟨p, _ | ⟨q, rest⟩⟩
    · cases hpart
    · cases hpart
    · cases hpart
      exact List.mem_append_left _ hmem
  · rw [hkind]
    rcases parts with _ | ⟨p, _ | ⟨q, rest⟩⟩
    · cases hpart
    · cases hpart
      dsimp only
      rw [if_pos hop]
      exact hmem
    · cases hpart
      dsimp only
      rw [if_pos hop]
      exact List.mem_append_right _ hmem

/-- **A step has the use** of what it reads and counts. -/
theorem Performs.mem_usesAt (h : Performs step t acc) (hstep : root.subtree? step = some t)
    (he : .reads i x ∈ acc) (hcounts : root.arena.Counts step i) :
    ⟨i, x⟩ ∈ root.arena.usesAt true step := by
  obtain ⟨hname, hinitializer⟩ := h.reads hstep he
  rw [Arena.usesAt, Arena.subtree?_arena, hstep]
  dsimp only
  rw [Variables.uses, FactSet.mem_ofList]
  by_cases hcondition : root.arena.isCondition step = true
  · rw [if_pos hcondition, if_pos rfl]
    exact (Variables.mem_identifiersIn hstep).mpr hname
  · have hoperand := hcounts.resolve_left hcondition
    rw [Arena.firstAssignment?, Arena.subtree?_arena, hstep, Option.bind_some] at hoperand
    rw [if_neg hcondition]
    cases hfound : Variables.firstAssignment? step t with
    | some first =>
        obtain ⟨place, c, hplace, hi, hused⟩ := hoperand first.1 first.2 hfound
        obtain ⟨hsite, -⟩ := Variables.below_of_firstAssignment? hstep hfound
        exact mem_assignmentUses hsite hplace hi hname.2 hused
    | none =>
        cases hdeclaration : Variables.declaration? step t with
        | some p => exact hinitializer p.1 p.2 hdeclaration
        | none => exact (Variables.mem_identifiersIn hstep).mpr hname

end Steps

end Trace

/-! ## Paths without a detour -/

namespace FlowGraph

variable {g : FlowGraph} {a b : Nat} {between : List Nat}

/-- A path goes on from the last time that it comes to a step. -/
theorem Leads.exists_last {s : Nat} (h : g.Leads a between b) (hs : s ∈ a :: between) :
    ∃ rest, g.Leads s rest b ∧ s ∉ rest ∧ ∀ k ∈ rest, k ∈ between := by
  induction between generalizing a with
  | nil =>
      obtain rfl := List.mem_singleton.mp hs
      exact ⟨[], h, List.not_mem_nil, List.forall_mem_nil _⟩
  | cons k between ih =>
      by_cases hlater : s ∈ k :: between
      · obtain ⟨rest, hleads, hnot, hrest⟩ := ih (leads_cons.mp h).2 hlater
        exact ⟨rest, hleads, hnot, fun n hn => List.mem_cons_of_mem k (hrest n hn)⟩
      · obtain rfl := (List.mem_cons.mp hs).resolve_right hlater
        exact ⟨k :: between, h, hlater, fun n hn => hn⟩

/-- A path comes to its end for a first time. -/
theorem Leads.exists_first (h : g.Leads a between b) :
    ∃ rest, g.Leads a rest b ∧ b ∉ rest ∧ ∀ k ∈ rest, k ∈ between := by
  induction between generalizing a with
  | nil => exact ⟨[], h, List.not_mem_nil, List.forall_mem_nil _⟩
  | cons k between ih =>
      obtain ⟨hedge, h⟩ := leads_cons.mp h
      by_cases hk : b = k
      · exact ⟨[], leads_nil.mpr (hk ▸ hedge), List.not_mem_nil, List.forall_mem_nil _⟩
      · obtain ⟨rest, hleads, hnot, hrest⟩ := ih h
        refine ⟨k :: rest, leads_cons.mpr ⟨hedge, hleads⟩, ?_, ?_⟩
        · exact fun hmem => (List.mem_cons.mp hmem).elim hk hnot
        · exact List.forall_mem_cons.mpr
            ⟨List.mem_cons_self, fun n hn => List.mem_cons_of_mem k (hrest n hn)⟩

end FlowGraph

namespace Trace

open Steps

variable {root body : Tree} {g : FlowGraph} {id n s : Nat} {x : String} {K : List Work}
  {history earlier later : History} {acc : List Access}

/-- Steps of an execution that keep a variable do not define it, unless their first assignment is
to it. -/
theorem not_defines_of_mem (hexecutes : Executes root.arena [.run id body] history K)
    (hlater : ∀ p ∈ later, p ∈ history) (hkeeps : ∀ p ∈ later, Keeps x p.2) {k : Nat}
    (hk : k ∈ later.map Prod.fst) (hskips : root.arena.firstTarget? k ≠ some x) :
    ¬root.arena.Defines k x := by
  obtain ⟨⟨k, acc⟩, hp, rfl⟩ := List.mem_map.mp hk
  obtain ⟨t, hstep, hperforms⟩ := hexecutes.performs (hlater _ hp)
  rw [Arena.subtree?_arena] at hstep
  exact fun hdefines => hskips (hperforms.firstTarget?_eq hstep (hkeeps _ hp) hdefines)

end Trace

/-- **Reaching definitions cover the definitions that steps stand for.**  A step of a method is
about to run, and the latest write to a variable was a definition.  It reaches the step if the first
assignment of its own step is no other one, and no other step executed since has a first assignment
to the variable, which it must have skipped. -/
theorem reachingDefinitions_cover {source : Text} {d : Document} (h : parse source = .ok d) {m : Nat}
    (hm : m ∈ d.tree.methods) (conditionUses : Bool) :
    ∃ id body flow, d.methodBody? m = some (id, body) ∧
      MethodFlow.analyze d.arena conditionUses m = .ok flow ∧
      ∀ history K n, Trace.Executes d.arena [.run id body] history K → Steps.Ahead K n →
        ∀ x site s since, Trace.LastDefined history x site s since →
          (∀ first, d.arena.firstAssignment? s = some first → first.1 = site) →
          (∀ k ∈ since, k ≠ s → d.arena.firstTarget? k ≠ some x) →
          ∃ into, flow.reachingIn? n = some into ∧ ⟨site, x⟩ ∈ into := by
  obtain ⟨id, body, hbody, -, hstatement, hgraph⟩ := exists_methodBody h hm
  obtain ⟨flow, hflow, hg, -, -⟩ := MethodFlow.exists_analyze hgraph conditionUses
  have hclosed : flow.graph.Closed := hg ▸ hstatement.closed_graph
  refine ⟨id, body, flow, hbody, hflow, ?_⟩
  intro history K n hexecutes hahead x site s since hdefined hfirst hskips
  obtain ⟨earlier, before, after, later, rfl, -, hkeeps, rfl⟩ := hdefined
  have hleads : flow.graph.Leads s (later.map Prod.fst) n :=
    hg ▸ hexecutes.leads (hstatement.isOrder id) rfl hahead
  obtain ⟨rest, hrest, hnot, hsub⟩ := hleads.exists_last List.mem_cons_self
  obtain ⟨into, hinto, hmem⟩ := (MethodFlow.isAnalysis hflow).exists_reachingIn? hclosed
    (hleads.mem_nodes hclosed n (.inr (.inr rfl)))
  refine ⟨into, hinto, (hmem _).mpr ⟨s, ?_, rest, hrest, ?_⟩⟩
  · obtain ⟨t, hstep, hperforms⟩ := hexecutes.performs (n := s)
      (List.mem_append_right _ List.mem_cons_self)
    rw [Document.arena, Arena.subtree?_arena] at hstep
    exact hperforms.mem_definitionsAt hstep (List.mem_append_right _ List.mem_cons_self) hfirst
  · intro k hk
    have hne : k ≠ s := fun heq => hnot (heq ▸ hk)
    exact Trace.not_defines_of_mem hexecutes
      (fun p hp => List.mem_append_right _ (List.mem_cons_of_mem _ hp)) hkeeps (hsub k hk)
      (hskips k (hsub k hk) hne)

section Samples

open Steps Trace

/-- A method with one assignment inside another, and a third one behind `||`. -/
def nestedAssignments : Text :=
  "class C { bool M(bool a, bool b) { bool d = b; bool c = a = b = true; if (c || (a = false)) return b; return a; } }".toList

/-- The body of a method that declares `d`, then `c` with an assignment to `b` inside one to `a`, and
returns if `c` or the value of another assignment to `a`. -/
def assignsInside : Option (Nat × Tree) → Bool
  | some (5, .node b [.node l [.node v [.node x [.node y []]]],
      .node l' [.node v' [.node x' [.node f [.node a [], .node g [.node c [], .node n []]]]]],
      .node i [.node o [.node p [], .node _ [.node _ [.node _ [], .node _ []]]],
        .node r [.node _ []]], _]) =>
    decide (b.kind = .block ∧ l.kind = .localDeclaration ∧
      v.kind = .variableDeclaration .bool ∧ x.kind = .variableDeclarator "d" ∧
      y.kind = .identifier "b" ∧ l'.kind = .localDeclaration ∧
      v'.kind = .variableDeclaration .bool ∧ x'.kind = .variableDeclarator "c" ∧
      f.kind = .assignment .assign ∧ a.kind = .identifier "a" ∧ g.kind = .assignment .assign ∧
      c.kind = .identifier "b" ∧ n.kind = .literal ⟨.bool, "true"⟩ ∧ i.kind = .ifStatement ∧
      o.kind = .binary .or ∧ p.kind = .identifier "c" ∧ r.kind = .returnStatement)
  | _ => false

/-- An execution of the body up to the return, with `c` true. -/
theorem exists_executes_assignsInside {source : Text} {d : Document} (hd : parse source = .ok d)
    {m : Nat} (hm : m ∈ d.tree.methods) (h : assignsInside (d.methodBody? m) = true) :
    ∃ id body K, d.methodBody? m = some (id, body) ∧
      Executes d.arena [.run id body]
        [(6, [.reads 9 "b", .defines 6 "d"]),
          (10, [.defines 15 "b", .defines 13 "a", .defines 10 "c"]), (19, [.reads 20 "c"])] K ∧
      Ahead K 25 := by
  obtain ⟨id, body, hmethod, hid, -, -⟩ := exists_methodBody hd hm
  rw [assignsInside.eq_def] at h
  split at h
  · rename_i b l v x y l' v' x' f a g c n i o p q q' t e r s rest hbody
    rw [decide_eq_true_eq] at h
    obtain ⟨hb, hl, hv, hx, hy, hl', hv', hx', hf, ha, hg, hc, hn, hi, ho, hp, hr⟩ := h
    obtain ⟨rfl, rfl⟩ := Prod.mk.inj (Option.some.inj (hmethod.symm.trans hbody))
    obtain ⟨h6, h10, h18, -⟩ := Tree.subtree?_children hid
    obtain ⟨h19, -⟩ := Tree.subtree?_children h18
    simp only [← Arena.subtree?_arena] at h6 h10 h19
    have hfirst : Performs 6 (.node l [.node v [.node x [.node y []]]])
        [.reads 9 "b", .defines 6 "d"] := .declaration hl hv (.initialized hx (.identifier hy) .nil)
    have hinner : Evaluates 15 (.node g [.node c [], .node n []]) [.defines 15 "b"] :=
      .simple hg rfl (identifier?_identifier hc 16 []) (.literal hn)
    have houter : Evaluates 13 (.node f [.node a [], .node g [.node c [], .node n []]])
        [.defines 15 "b", .defines 13 "a"] :=
      .simple hf rfl (identifier?_identifier ha 14 []) hinner
    have hsecond : Performs 10
        (.node l' [.node v' [.node x' [.node f [.node a [], .node g [.node c [], .node n []]]]]])
        [.defines 15 "b", .defines 13 "a", .defines 10 "c"] :=
      .declaration hl' hv' (.initialized hx' houter .nil)
    have hthird : Performs 19 (.node o [.node p [], .node q [.node q' [.node t [], .node e []]]])
        [.reads 20 "c"] :=
      .expression (.shortcut ho (.inr rfl) (.identifier hp))
    refine ⟨5, _, [.run 25 (.node r [.node s []]), .run 27 rest], hbody, ?_, .of_move (.returns hr)⟩
    refine .silent (.block hb) ?_
    refine .step (.plain (by rw [hl]; rfl)) h6 hfirst ?_
    refine .step (.plain (by rw [hl']; rfl)) h10 hsecond ?_
    exact .step (.ifTrue hi) h19 hthird .done
  · cases h

/-- What the analysis says at that return. -/
theorem exists_nestedAssignments : ∃ d id body flow K into,
    parse nestedAssignments = .ok d ∧ 2 ∈ d.tree.methods ∧ d.methodBody? 2 = some (id, body) ∧
      MethodFlow.analyze d.arena false 2 = .ok flow ∧
      Executes d.arena [.run id body]
        [(6, [.reads 9 "b", .defines 6 "d"]),
          (10, [.defines 15 "b", .defines 13 "a", .defines 10 "c"]), (19, [.reads 20 "c"])] K ∧
      Ahead K 25 ∧ flow.reachingIn? 25 = some into ∧ into.toList = [⟨6, "d"⟩, ⟨22, "a"⟩] ∧
      d.arena.firstAssignment? 6 = none ∧ d.arena.firstTarget? 10 = some "a" ∧
      d.arena.firstTarget? 19 = some "a" := by
  have hread : (parse nestedAssignments).toOption.any (fun d =>
        d.tree.methods.contains 2 && assignsInside (d.methodBody? 2) &&
          (d.arena.firstAssignment? 6).isNone && d.arena.firstTarget? 10 == some "a" &&
          d.arena.firstTarget? 19 == some "a" &&
          (MethodFlow.analyze d.arena false 2).toOption.any fun flow =>
            (flow.reachingIn? 25).map FactSet.toList == some [⟨6, "d"⟩, ⟨22, "a"⟩]) = true := by
    decide +kernel
  obtain ⟨d, hd, htests⟩ := exists_document_of_any hread
  simp only [Bool.and_eq_true, List.contains_iff_mem, Option.isNone_iff_eq_none, beq_iff_eq]
    at htests
  obtain ⟨⟨⟨⟨⟨hmethod, hshape⟩, hfirst⟩, hsecond⟩, hthird⟩, htests⟩ := htests
  obtain ⟨flow, hflow, hfacts⟩ := exists_ok_of_any htests
  obtain ⟨into, hinto, hlist⟩ := Option.map_eq_some_iff.mp (beq_iff_eq.mp hfacts)
  obtain ⟨id, body, K, hbody, hexecutes, hahead⟩ := exists_executes_assignsInside hd hmethod hshape
  exact ⟨d, id, body, flow, K, into, hd, hmethod, hbody, hflow, hexecutes, hahead, hinto, hlist,
    hfirst, hsecond, hthird⟩

/-- The definition of `d` is covered, past steps that stand for other variables. -/
theorem reachingDefinitions_cover_return : ∃ d id body flow history K into,
    parse nestedAssignments = .ok d ∧ d.methodBody? 2 = some (id, body) ∧
      MethodFlow.analyze d.arena false 2 = .ok flow ∧ Executes d.arena [.run id body] history K ∧
      Ahead K 25 ∧ LastDefined history "d" 6 6 [10, 19] ∧
      flow.reachingIn? 25 = some into ∧ ⟨6, "d"⟩ ∈ into := by
  obtain ⟨d, id, body, -, K, -, hd, hmethod, hbody, -, hexecutes, hahead, -, -, hfirst, hsecond,
    hthird⟩ := exists_nestedAssignments
  obtain ⟨id', body', flow, hbody', hflow, hcover⟩ := reachingDefinitions_cover hd hmethod false
  obtain ⟨rfl, rfl⟩ := Prod.mk.inj (Option.some.inj (hbody.symm.trans hbody'))
  have hdefined : LastDefined
      [(6, [.reads 9 "b", .defines 6 "d"]),
        (10, [.defines 15 "b", .defines 13 "a", .defines 10 "c"]), (19, [.reads 20 "c"])]
      "d" 6 6 [10, 19] :=
    ⟨[], [.reads 9 "b"], [], _, rfl, by decide, by decide, rfl⟩
  obtain ⟨into, hinto, hmem⟩ := hcover _ K 25 hexecutes hahead "d" 6 6 _ hdefined
    (by simp [hfirst]) (by simp [hsecond, hthird])
  exact ⟨d, id, body, flow, _, K, into, hd, hbody, hflow, hexecutes, hahead, hdefined, hinto, hmem⟩

/-- The inner one of two assignments, a declarator with an assignment in its initializer, and a
definition followed by a step that skips an assignment to the same variable are not covered. -/
theorem exists_uncovered_definitions : ∃ d id body flow history K into,
    parse nestedAssignments = .ok d ∧ d.methodBody? 2 = some (id, body) ∧
      MethodFlow.analyze d.arena false 2 = .ok flow ∧ Executes d.arena [.run id body] history K ∧
      Ahead K 25 ∧ flow.reachingIn? 25 = some into ∧
      (LastDefined history "b" 15 10 [19] ∧ ⟨15, "b"⟩ ∉ into) ∧
      (LastDefined history "c" 10 10 [19] ∧ ⟨10, "c"⟩ ∉ into) ∧
      (LastDefined history "a" 13 10 [19] ∧ ⟨13, "a"⟩ ∉ into) := by
  obtain ⟨d, id, body, flow, K, into, hd, -, hbody, hflow, hexecutes, hahead, hinto, hlist, -⟩ :=
    exists_nestedAssignments
  refine ⟨d, id, body, flow, _, K, into, hd, hbody, hflow, hexecutes, hahead, hinto, ?_⟩
  simp only [FactSet.mem_def, hlist]
  refine ⟨⟨?_, by decide⟩, ⟨?_, by decide⟩, ?_, by decide⟩
  · exact ⟨[_], [], _, _, rfl, by decide, by decide, rfl⟩
  · exact ⟨[_], [_, _], _, _, rfl, by decide, by decide, rfl⟩
  · exact ⟨[_], [_], _, _, rfl, by decide, by decide, rfl⟩

end Samples

/-- **Live variables cover the reads that steps count.**  After a step of a method another one
reads a variable, without a write in between.  The use is live after the first step if the other one
counts it, and no third step executed in between has a first assignment to the variable, which it
must have skipped. -/
theorem liveUses_cover {source : Text} {d : Document} (h : parse source = .ok d) {m : Nat}
    (hm : m ∈ d.tree.methods) :
    ∃ id body flow, d.methodBody? m = some (id, body) ∧
      MethodFlow.analyze d.arena true m = .ok flow ∧
      ∀ history K, Trace.Executes d.arena [.run id body] history K →
        ∀ x n i s between, Trace.ReadAfter history x n i s between → d.arena.Counts s i →
          (∀ k ∈ between, k ≠ s → d.arena.firstTarget? k ≠ some x) →
          ∃ out, flow.liveOut? n = some out ∧ ⟨i, x⟩ ∈ out := by
  obtain ⟨id, body, hbody, -, hstatement, hgraph⟩ := exists_methodBody h hm
  obtain ⟨flow, hflow, hg, -, -⟩ := MethodFlow.exists_analyze hgraph true
  have hclosed : flow.graph.Closed := hg ▸ hstatement.closed_graph
  refine ⟨id, body, flow, hbody, hflow, ?_⟩
  intro history K hexecutes x n i s between hread hcounts hskips
  obtain ⟨earlier, acc, middle, before, after, later, rfl, -, hkeeps, rfl⟩ := hread
  have hparts : earlier ++ (n, acc) :: (middle ++ (s, before ++ .reads i x :: after) :: later) =
      (earlier ++ (n, acc) :: middle) ++ (s, before ++ .reads i x :: after) :: later := by
    rw [List.append_assoc, List.cons_append]
  obtain ⟨K₁, hbefore, hreads⟩ := hexecutes.split hparts
  have hleads : flow.graph.Leads n (middle.map Prod.fst) s :=
    hg ▸ hbefore.leads (hstatement.isOrder id) rfl (hreads.ahead rfl)
  obtain ⟨rest, hrest, hnot, hsub⟩ := hleads.exists_first
  obtain ⟨out, hout, hmem⟩ := (MethodFlow.isAnalysis hflow).exists_liveOut? hclosed
    (hleads.mem_nodes hclosed n (.inl rfl))
  refine ⟨out, hout, (hmem _).mpr ⟨s, ?_, rest, hrest, ?_⟩⟩
  · obtain ⟨t, hstep, hperforms⟩ := hreads.performs (n := s) List.mem_cons_self
    rw [Document.arena, Arena.subtree?_arena] at hstep
    exact hperforms.mem_usesAt hstep (List.mem_append_right _ List.mem_cons_self) hcounts
  · intro k hk
    have hne : k ≠ s := fun heq => hnot (heq ▸ hk)
    exact Trace.not_defines_of_mem hbefore
      (fun p hp => List.mem_append_right _ (List.mem_cons_of_mem _ hp)) hkeeps (hsub k hk)
      (hskips k (hsub k hk) hne)

section Samples

open Steps Trace

/-- A method with an assignment behind `&&`, and one beside a read. -/
def skippedAssignment : Text :=
  "class C { int M(bool c, int x, int y) { ; if (c && (x = 1) > 0) return y; return x + (y = x + y); } }".toList

/-- The body of a method that returns if `c` and the value of an assignment to `x`, and then returns
what `x` adds to the value of an assignment to `y` of both. -/
def readsOutside : Option (Nat × Tree) → Bool
  | some (6, .node b [.node e [],
      .node i [.node o [.node p [], .node _ [.node _ [.node _ [.node _ [], .node _ []]], .node _ []]],
        .node _ [.node _ []]],
      .node r [.node s [.node x [], .node q [.node f [.node y [],
        .node s' [.node x' [], .node y' []]]]]]]) =>
    decide (b.kind = .block ∧ e.kind = .emptyStatement ∧ i.kind = .ifStatement ∧
      o.kind = .binary .and ∧ p.kind = .identifier "c" ∧ r.kind = .returnStatement ∧
      s.kind = .binary .add ∧ x.kind = .identifier "x" ∧ q.kind = .parenthesized ∧
      f.kind = .assignment .assign ∧ y.kind = .identifier "y" ∧ s'.kind = .binary .add ∧
      x'.kind = .identifier "x" ∧ y'.kind = .identifier "y")
  | _ => false

/-- An execution of the body with `c` false. -/
theorem exists_executes_readsOutside {source : Text} {d : Document} (hd : parse source = .ok d)
    {m : Nat} (hm : m ∈ d.tree.methods) (h : readsOutside (d.methodBody? m) = true) :
    ∃ id body K, d.methodBody? m = some (id, body) ∧
      Executes d.arena [.run id body]
        [(7, []), (9, [.reads 10 "c"]),
          (19, [.reads 21 "x", .reads 26 "x", .reads 27 "y", .defines 23 "y"])] K := by
  obtain ⟨id, body, hmethod, hid, -, -⟩ := exists_methodBody hd hm
  rw [readsOutside.eq_def] at h
  split at h
  · rename_i b e i o p u v w z k l n j r s x q f y s' x' y' hbody
    rw [decide_eq_true_eq] at h
    obtain ⟨hb, he, hi, ho, hp, hr, hs, hx, hq, hf, hy, hs', hx', hy'⟩ := h
    obtain ⟨rfl, rfl⟩ := Prod.mk.inj (Option.some.inj (hmethod.symm.trans hbody))
    obtain ⟨h7, h8, h19⟩ := Tree.subtree?_children hid
    obtain ⟨h9, -⟩ := Tree.subtree?_children h8
    simp only [← Arena.subtree?_arena] at h7 h9 h19
    have hskip : Performs 9 (.node o [.node p [],
        .node u [.node v [.node w [.node z [], .node k []]], .node l []]]) [.reads 10 "c"] :=
      .expression (.shortcut ho (.inl rfl) (.identifier hp))
    have hvalue : Evaluates 25 (.node s' [.node x' [], .node y' []])
        [.reads 26 "x", .reads 27 "y"] := .binary hs' (.identifier hx') (.identifier hy')
    have hinner : Evaluates 22 (.node q [.node f [.node y [], .node s' [.node x' [], .node y' []]]])
        [.reads 26 "x", .reads 27 "y", .defines 23 "y"] :=
      .parenthesized hq (.simple hf rfl (identifier?_identifier hy 24 []) hvalue)
    have hsum : Evaluates 20 (.node s [.node x [],
        .node q [.node f [.node y [], .node s' [.node x' [], .node y' []]]]])
        [.reads 21 "x", .reads 26 "x", .reads 27 "y", .defines 23 "y"] :=
      .binary hs (.identifier hx) hinner
    refine ⟨6, _, [], hbody, .silent (.block hb) ?_⟩
    refine .step (.plain (by rw [he]; rfl)) h7 (.nothing (.inl he)) ?_
    refine .step (.ifFalse hi) h9 hskip ?_
    exact .step (.returns hr) h19 (.statement (.inr hr) hsum) .done
  · cases h

/-- What the analysis says before and behind the `if`. -/
theorem exists_skippedAssignment : ∃ d id body flow K out out',
    parse skippedAssignment = .ok d ∧ 2 ∈ d.tree.methods ∧ d.methodBody? 2 = some (id, body) ∧
      MethodFlow.analyze d.arena true 2 = .ok flow ∧
      Executes d.arena [.run id body]
        [(7, []), (9, [.reads 10 "c"]),
          (19, [.reads 21 "x", .reads 26 "x", .reads 27 "y", .defines 23 "y"])] K ∧
      flow.liveOut? 7 = some out ∧
      out.toList = [⟨10, "c"⟩, ⟨14, "x"⟩, ⟨18, "y"⟩, ⟨27, "y"⟩] ∧
      flow.liveOut? 9 = some out' ∧ out'.toList = [⟨18, "y"⟩, ⟨26, "x"⟩, ⟨27, "y"⟩] ∧
      d.arena.Counts 19 27 ∧ d.arena.firstTarget? 9 = some "x" := by
  have hread : (parse skippedAssignment).toOption.any (fun d =>
        d.tree.methods.contains 2 && readsOutside (d.methodBody? 2) &&
          (d.arena.firstAssignment? 19).any (fun first => first.1 == 23) &&
          d.arena.childrenOf 23 == [24, 25] && d.arena.descendants 25 == [25, 26, 27] &&
          d.arena.firstTarget? 9 == some "x" &&
          (MethodFlow.analyze d.arena true 2).toOption.any fun flow =>
            (flow.liveOut? 7).map FactSet.toList ==
                some [⟨10, "c"⟩, ⟨14, "x"⟩, ⟨18, "y"⟩, ⟨27, "y"⟩] &&
              (flow.liveOut? 9).map FactSet.toList ==
                some [⟨18, "y"⟩, ⟨26, "x"⟩, ⟨27, "y"⟩]) = true := by
    decide +kernel
  obtain ⟨d, hd, htests⟩ := exists_document_of_any hread
  simp only [Bool.and_eq_true, List.contains_iff_mem, beq_iff_eq] at htests
  obtain ⟨⟨⟨⟨⟨⟨hmethod, hshape⟩, hfirst⟩, hchildren⟩, hdescendants⟩, htarget⟩, htests⟩ := htests
  obtain ⟨flow, hflow, hfacts⟩ := exists_ok_of_any htests
  simp only [Bool.and_eq_true, beq_iff_eq, Option.map_eq_some_iff] at hfacts
  obtain ⟨⟨out, hout, hlist⟩, out', hout', hlist'⟩ := hfacts
  obtain ⟨id, body, K, hbody, hexecutes⟩ := exists_executes_readsOutside hd hmethod hshape
  have hcounts : d.arena.Counts 19 27 := by
    refine .inr fun site t hsite => ?_
    rw [hsite, Option.any_some, beq_iff_eq] at hfirst
    subst hfirst
    exact ⟨1, 25, by rw [hchildren]; rfl, by rw [hdescendants]; decide, .inl rfl⟩
  exact ⟨d, id, body, flow, K, out, out', hd, hmethod, hbody, hflow, hexecutes, hout, hlist, hout',
    hlist', hcounts, htarget⟩

/-- The use of `y` is live from the beginning, past a step that stands for another variable. -/
theorem liveUses_cover_return : ∃ d id body flow history K out,
    parse skippedAssignment = .ok d ∧ d.methodBody? 2 = some (id, body) ∧
      MethodFlow.analyze d.arena true 2 = .ok flow ∧ Executes d.arena [.run id body] history K ∧
      ReadAfter history "y" 7 27 19 [9] ∧ flow.liveOut? 7 = some out ∧ ⟨27, "y"⟩ ∈ out := by
  obtain ⟨d, id, body, -, K, -, -, hd, hmethod, hbody, -, hexecutes, -, -, -, -, hcounts, htarget⟩ :=
    exists_skippedAssignment
  obtain ⟨id', body', flow, hbody', hflow, hcover⟩ := liveUses_cover hd hmethod
  obtain ⟨rfl, rfl⟩ := Prod.mk.inj (Option.some.inj (hbody.symm.trans hbody'))
  have hread : ReadAfter
      [(7, []), (9, [.reads 10 "c"]),
        (19, [.reads 21 "x", .reads 26 "x", .reads 27 "y", .defines 23 "y"])]
      "y" 7 27 19 [9] :=
    ⟨[], _, [_], [_, _], _, [], rfl, by decide, by decide, rfl⟩
  obtain ⟨out, hout, hmem⟩ := hcover _ K hexecutes "y" 7 27 19 _ hread hcounts (by simp [htarget])
  exact ⟨d, id, body, flow, _, K, out, hd, hbody, hflow, hexecutes, hread, hout, hmem⟩

/-- A read after a step that skips an assignment to the variable, and one outside the first
assignment of its own step, are not covered. -/
theorem exists_uncovered_reads : ∃ d id body flow history K out out',
    parse skippedAssignment = .ok d ∧ d.methodBody? 2 = some (id, body) ∧
      MethodFlow.analyze d.arena true 2 = .ok flow ∧ Executes d.arena [.run id body] history K ∧
      flow.liveOut? 7 = some out ∧ flow.liveOut? 9 = some out' ∧
      (ReadAfter history "x" 7 26 19 [9] ∧ ⟨26, "x"⟩ ∉ out) ∧
      (ReadAfter history "x" 9 21 19 [] ∧ ⟨21, "x"⟩ ∉ out') := by
  obtain ⟨d, id, body, flow, K, out, out', hd, -, hbody, hflow, hexecutes, hout, hlist, hout',
    hlist', -⟩ := exists_skippedAssignment
  refine ⟨d, id, body, flow, _, K, out, out', hd, hbody, hflow, hexecutes, hout, hout', ?_⟩
  simp only [FactSet.mem_def, hlist, hlist']
  refine ⟨⟨?_, by decide⟩, ?_, by decide⟩
  · exact ⟨[], _, [_], [_], _, [], rfl, by decide, by decide, rfl⟩
  · exact ⟨[_], _, [], [], _, [], rfl, by decide, by decide, rfl⟩

end Samples

end SharpMutants
