import SharpMutants.Proofs.Dataflow.Paths
import SharpMutants.Proofs.Dataflow.Reachability

/-!
# Cycles go through the conditions of loops

The nodes of a loop from its condition on (`Tree.Within`) are entered at the condition only: no
edge from outside leads to another of them (`Steps.Statement.entered`).  So the condition lies on
every path from the entry to any of them (`Steps.Statement.dominates`).

An edge that does not lead back to the condition of a loop leads onward in the order of execution.
On a trail of the search no edge leads back, since the condition has been passed before.  So a
trail goes onward, and if an edge leads from its end to one of its nodes, that is the condition of
a loop (`Steps.Statement.back_of_trail`).
-/

namespace SharpMutants

/-! ## Conditions of loops -/

namespace Tree

variable {root t s : Tree} {id k h n : Nat}

/-- A loop is a `while` or `for` statement. -/
theorem LoopTest.kind (hloop : root.LoopTest k h) : ∃ s, root.subtree? k = some s ∧
    (s.kind = .whileStatement ∨ s.kind = .forStatement) := by
  cases hloop with
  | whileLoop hk hkind => exact ⟨_, hk, .inl hkind⟩
  | forLoop hk hkind => exact ⟨_, hk, .inr hkind⟩

/-- A statement that is no loop is not the loop of a condition. -/
theorem LoopTest.ne {d : Node} {cs : List Tree} (hloop : root.LoopTest k h)
    (hid : root.subtree? id = some (.node d cs))
    (hkind : d.kind ≠ .whileStatement ∧ d.kind ≠ .forStatement) : k ≠ id := by
  rintro rfl
  obtain ⟨s, hs, hk⟩ := hloop.kind
  obtain rfl := Option.some.inj (hid.symm.trans hs)
  exact hk.elim hkind.1 hkind.2

/-- The condition of a `while` is its first child. -/
theorem LoopTest.eq_of_while {d : Node} {cond body : Tree} (hloop : root.LoopTest k h)
    (hk : root.subtree? k = some (.node d [cond, body])) : h = k + 1 := by
  cases hloop with
  | whileLoop => rfl
  | forLoop hk' _ => cases hk.symm.trans hk'

/-- The condition of a `for` is its second child. -/
theorem LoopTest.eq_of_for {d : Node} {init cond increment body : Tree}
    (hloop : root.LoopTest k h)
    (hk : root.subtree? k = some (.node d [init, cond, increment, body])) :
    h = k + 1 + init.size := by
  cases hloop with
  | whileLoop hk' _ => cases hk.symm.trans hk'
  | forLoop hk' _ =>
      cases hk.symm.trans hk'
      rfl

end Tree

namespace Steps

variable {root t : Tree} {cs : List Tree} {exit : Option Nat} {id k h n m : Nat}

/-- The steps of a node below a statement are steps of the statement. -/
theorem own_subset {s : Tree} (hid : root.subtree? id = some t) (hk : root.subtree? k = some s)
    (hbelow : root.Below id k) : own k s.kind s.children ⊆ steps id t := by
  intro n hn
  obtain ⟨hle, hlt⟩ := (Tree.below_iff hid).mp hbelow
  have hsub := Tree.subtree?_add hid (k := k - id) (by omega)
  rw [show id + (k - id) = k by omega, hk] at hsub
  rw [steps, stepsAmong, List.mem_flatMap]
  exact ⟨(s, k), List.mem_zipIdx_iff_le_and_getElem?_sub.mpr ⟨hle, hsub.symm⟩, hn⟩

/-- A loop has a step right behind its node. -/
theorem start_mem_steps (hid : root.subtree? id = some t) (hloop : root.LoopTest k h)
    (hk : root.Below id k) : k + 1 ∈ steps id t := by
  cases hloop with
  | whileLoop hs hkind =>
      refine own_subset hid hs hk ?_
      rw [Tree.kind, Tree.root, hkind]
      exact List.mem_cons_self
  | forLoop hs hkind =>
      refine own_subset hid hs hk ?_
      rw [Tree.kind, Tree.root, hkind]
      exact List.mem_cons_self

/-- There are no loops in a tree without steps. -/
theorem Inert.not_below (ht : Inert t) (hid : root.subtree? id = some t)
    (hloop : root.LoopTest k h) : ¬root.Below id k := by
  intro hk
  have hstep := start_mem_steps hid hloop hk
  rw [ht] at hstep
  cases hstep

/-! ## Loops are entered at their conditions -/

/-- Of the nodes of a loop from its condition on, a step is the condition if it is one of them. -/
def Starts (root : Tree) (k h : Nat) (step : Option Nat) : Prop :=
  ∀ m, step = some m → root.Within k h m → m = h

/-- The edges to the nodes of a loop from its condition on come from these nodes or lead to the
condition. -/
def Enters (root : Tree) (k h : Nat) (edits : List GraphEdit) : Prop :=
  ∀ n m, .edge n m ∈ edits → root.Within k h m → root.Within k h n ∨ m = h

/-- No step leads into no loop. -/
theorem starts_none : Starts root k h none := nofun

theorem enters_nil : Enters root k h [] := nofun

/-- The first of two steps leads into a loop by its condition only, if both do. -/
theorem Starts.or {first second : Option Nat} (hfirst : Starts root k h first)
    (hsecond : Starts root k h second) : Starts root k h (first.or second) := by
  intro m hm
  rcases Option.or_eq_some_iff.mp hm with hm | ⟨-, hm⟩
  · exact hfirst m hm
  · exact hsecond m hm

/-- A step outside of a loop does not lead into it. -/
theorem starts_of_not_within (hm : ¬root.Within k h m) : Starts root k h (some m) := by
  intro n hn hwithin
  obtain rfl := Option.some.inj hn
  exact absurd hwithin hm

/-- Edges enter a loop by its condition only, if all edges of both lists do. -/
theorem enters_append {edits edits' : List GraphEdit} :
    Enters root k h (edits ++ edits') ↔ Enters root k h edits ∧ Enters root k h edits' := by
  simp only [Enters, List.mem_append, or_imp, forall_and]

/-- A node of the graph is no edge into a loop. -/
theorem enters_node_cons {edits : List GraphEdit} :
    Enters root k h (.node n :: edits) ↔ Enters root k h edits := by
  simp [Enters]

/-- The edge to the step after leads into a loop by its condition only, if that step does. -/
theorem enters_edgeTo {step : Option Nat} (hstep : Starts root k h step) :
    Enters root k h (edgeTo n step) := by
  intro a m hedge hwithin
  obtain ⟨m', hm, heq⟩ := mem_edgeTo.mp hedge
  cases heq
  exact .inr (hstep m hm hwithin)

/-- An edge more leads into a loop by its condition only, if its target does. -/
theorem enters_edge_cons {edits : List GraphEdit} (hm : Starts root k h (some m))
    (h' : Enters root k h edits) : Enters root k h (.edge n m :: edits) := by
  have hedge : Enters root k h (edgeTo n (some m)) := enters_edgeTo hm
  exact enters_append.mpr ⟨hedge, h'⟩

/-- A statement leads into a loop by its condition only, if the step after it does. -/
def Sealed (root : Tree) (k h id : Nat) (t : Tree) : Prop :=
  ∀ exit, Starts root k h exit →
    Starts root k h (firstStep? id t) ∧ Enters root k h (statementEdits exit id t)

/-- A statement without nodes of the loop leads into it only by the step after it. -/
theorem Statement.sealed_of_outside (ht : Statement t) (hid : root.subtree? id = some t)
    (hout : ∀ m, root.Below id m → ¬root.Within k h m) : Sealed root k h id t := by
  refine fun exit hexit => ⟨fun m hm => ?_, fun n m hedge hwithin => ?_⟩
  · rw [ht.firstStep?_eq] at hm
    exact fun hwithin => absurd hwithin (hout m (ht.below_of_mem hid (List.mem_of_head? hm)))
  · rcases (ht.within exit id _ hedge).2 with hm | hm
    · exact absurd hwithin (hout m (ht.below_of_mem hid hm))
    · exact .inr (hexit m hm hwithin)

/-- What holds of the trees of a row, each at its place, holds of those behind the first. -/
theorem row_tail {P : Nat → Tree → Prop} {c : Tree}
    (h : ∀ ls b rs, c :: cs = ls ++ b :: rs → P (id + Tree.sizes ls) b) :
    ∀ ls b rs, cs = ls ++ b :: rs → P (id + c.size + Tree.sizes ls) b := by
  rintro ls b rs rfl
  have hb := h (c :: ls) b rs rfl
  rwa [Tree.sizes, ← Nat.add_assoc] at hb

/-- A row of statements leads into a loop by its condition only, if each of them does. -/
theorem sealedOf
    (h' : ∀ ls c rs, cs = ls ++ c :: rs → Sealed root k h (id + Tree.sizes ls) c)
    (hexit : Starts root k h exit) : Starts root k h (firstStepOf? id cs) ∧
      Enters root k h (statementsEdits exit id cs) := by
  induction cs generalizing id with
  | nil => exact ⟨starts_none, enters_nil⟩
  | cons c cs ih =>
      have hfirst : Sealed root k h id c := h' [] c cs rfl
      obtain ⟨hstart, hedges⟩ := ih (row_tail h')
      obtain ⟨hstart', hedges'⟩ := hfirst _ (hstart.or hexit)
      rw [firstStepOf?, statementsEdits]
      exact ⟨hstart'.or hstart, enters_append.mpr ⟨hedges', hedges⟩⟩

section Around

variable {s c : Tree} {k' : Nat} (hid : root.subtree? id = some s) (hk : root.Below id k)
  (hne : k ≠ id) (hchild : root.arena.IsChild id k') (hc : root.subtree? k' = some c)

include hid hk hne hchild

/-- The other children of a node around a loop have no nodes of the loop. -/
theorem not_within_of_child (hk' : ¬root.Below k' k) (hm : root.Below k' m) :
    ¬root.Within k h m := by
  intro hwithin
  obtain ⟨j, hj, hjk⟩ := (Tree.below_cases hid hk).resolve_left hne
  obtain rfl := Tree.eq_of_below_children hj hchild (hjk.trans hwithin.1) hm
  exact hk' hjk

include hc

/-- A part without steps has no nodes of a loop in the whole. -/
theorem Inert.not_within (hinert : Inert c) (hloop : root.LoopTest k h) : ¬root.Within k h k' :=
  not_within_of_child hid hk hne hchild (hinert.not_below hc hloop) (Tree.below_self hc)

/-- A part has the loop in it, or no nodes of the loop. -/
theorem Statement.sealed_of_child (ht : Statement c) (ih : root.Below k' k → Sealed root k h k' c) :
    Sealed root k h k' c := by
  by_cases hk' : root.Below k' k
  · exact ih hk'
  · exact ht.sealed_of_outside hc fun m => not_within_of_child hid hk hne hchild hk'

end Around

section Forms

variable {d e : Node} {init cond increment body other : Tree} (hloop : root.LoopTest k h)
  (hk : root.Below id k)

include hloop hk

/-- A loop is not below a step. -/
theorem not_below_step {t : Tree} (hid : root.subtree? id = some t) : steps id t ≠ [id] := by
  intro hsteps
  have hstep := start_mem_steps hid hloop hk
  rw [hsteps, List.mem_singleton] at hstep
  have := ((Tree.below_iff hid).mp hk).1
  omega

/-- A block leads into a loop by its condition only, if its statements do. -/
theorem sealed_block (hkind : d.kind = .block) (hcs : ∀ c ∈ cs, Statement c)
    (hid : root.subtree? id = some (.node d cs))
    (ih : ∀ c ∈ cs, ∀ {k'}, root.subtree? k' = some c → root.Below k' k → Sealed root k h k' c) :
    Sealed root k h id (.node d cs) := by
  have hne := hloop.ne hid (by simp [hkind])
  intro exit hexit
  rw [firstStep?_block hkind, statementEdits_block hkind]
  refine sealedOf (fun ls c rs hrow => ?_) hexit
  have hc : c ∈ cs := hrow ▸ List.mem_append_right _ List.mem_cons_self
  have hchild := Tree.subtree?_child hid hrow
  exact (hcs c hc).sealed_of_child hid hk hne (Tree.isChild hid ls hrow) hchild (ih c hc hchild)

/-- An `if` leads into a loop by its condition only, if its branch does. -/
theorem sealed_ifThen (hkind : d.kind = .ifStatement) (hcond : Inert cond) (hbody : Statement body)
    (hid : root.subtree? id = some (.node d [cond, body]))
    (ih : ∀ {k'}, root.subtree? k' = some body → root.Below k' k → Sealed root k h k' body) :
    Sealed root k h id (.node d [cond, body]) := by
  obtain ⟨htestId, hbodyId⟩ := Tree.subtree?_children hid
  obtain ⟨htestChild, hbodyChild⟩ := Tree.isChild_children hid
  have hne := hloop.ne hid (by simp [hkind])
  have htest := hcond.not_within hid hk hne htestChild htestId hloop
  intro exit hexit
  obtain ⟨hstart, hedges⟩ :=
    hbody.sealed_of_child hid hk hne hbodyChild hbodyId (ih hbodyId) exit hexit
  rw [firstStep?_compound (.inl hkind), statementEdits_ifThen hkind]
  refine ⟨starts_of_not_within htest, enters_node_cons.mpr ?_⟩
  exact enters_append.mpr ⟨enters_edgeTo (hstart.or hexit),
    enters_append.mpr ⟨enters_edgeTo hexit, hedges⟩⟩

/-- An `if` with two branches leads into a loop by its condition only, if both do. -/
theorem sealed_ifElse (hkind : d.kind = .ifStatement) (helse : e.kind = .elseClause)
    (hcond : Inert cond) (hbody : Statement body) (hother : Statement other)
    (hid : root.subtree? id = some (.node d [cond, body, .node e [other]]))
    (ih : ∀ {k'}, root.subtree? k' = some body → root.Below k' k → Sealed root k h k' body)
    (ih' : ∀ {k'}, root.subtree? k' = some other → root.Below k' k → Sealed root k h k' other) :
    Sealed root k h id (.node d [cond, body, .node e [other]]) := by
  have hparts := Tree.branches hid
  have hne := hloop.ne hid (by simp [hkind])
  have htest := hcond.not_within hid hk hne hparts.condChild hparts.condId hloop
  have hpart := hbody.sealed_of_child hid hk hne hparts.bodyChild hparts.bodyId (ih hparts.bodyId)
  have hpart' : Sealed root k h (id + 1 + cond.size + body.size + 1) other := by
    by_cases hk' : root.Below (id + 1 + cond.size + body.size) k
    · exact hother.sealed_of_child hparts.clauseId hk'
        (hloop.ne hparts.clauseId (by simp [helse])) hparts.otherChild hparts.otherId
        (ih' hparts.otherId)
    · exact hother.sealed_of_outside hparts.otherId fun m hm =>
        not_within_of_child hid hk hne hparts.clauseChild hk' (hparts.otherChild.below.trans hm)
  intro exit hexit
  obtain ⟨hstart, hedges⟩ := hpart exit hexit
  obtain ⟨hstart', hedges'⟩ := hpart' exit hexit
  rw [firstStep?_compound (.inl hkind), statementEdits_ifElse hkind helse]
  refine ⟨starts_of_not_within htest, enters_node_cons.mpr ?_⟩
  exact enters_append.mpr ⟨enters_edgeTo (hstart.or hexit),
    enters_append.mpr ⟨enters_edgeTo (hstart'.or hexit), enters_append.mpr ⟨hedges, hedges'⟩⟩⟩

/-- A `while` leads into a loop in it by its condition only: into itself, or into one in its
body. -/
theorem sealed_while (hkind : d.kind = .whileStatement) (hcond : Inert cond)
    (hbody : Statement body) (hid : root.subtree? id = some (.node d [cond, body]))
    (ih : ∀ {k'}, root.subtree? k' = some body → root.Below k' k → Sealed root k h k' body) :
    Sealed root k h id (.node d [cond, body]) := by
  obtain ⟨htestId, hbodyId⟩ := Tree.subtree?_children hid
  obtain ⟨htestChild, hbodyChild⟩ := Tree.isChild_children hid
  have hstatement := Statement.whileLoop hkind hcond hbody
  intro exit hexit
  rw [firstStep?_compound (.inr (.inl hkind))]
  by_cases hne : k = id
  · subst hne
    obtain rfl := hloop.eq_of_while hid
    refine ⟨fun m hm _ => (Option.some.inj hm).symm, fun n m hedge _ => .inl ?_⟩
    have hn := (hstatement.within exit k _ hedge).1
    exact ⟨hstatement.below_of_mem hid hn, test_le_of_mem_while hbody hkind hcond hn⟩
  · have htest := hcond.not_within hid hk hne htestChild htestId hloop
    obtain ⟨hstart, hedges⟩ := hbody.sealed_of_child hid hk hne hbodyChild hbodyId (ih hbodyId) _
      (starts_of_not_within htest)
    have hround := hstart.or (starts_of_not_within htest)
    rw [Option.or_some] at hround
    rw [statementEdits_while hkind]
    exact ⟨starts_of_not_within htest, enters_node_cons.mpr (enters_edge_cons hround
      (enters_append.mpr ⟨enters_edgeTo hexit, hedges⟩))⟩

/-- A `for` leads into a loop in it by its condition only: into itself, or into one in its body. -/
theorem sealed_for (hkind : d.kind = .forStatement) (hinit : Inert init) (hcond : Inert cond)
    (hincrement : Inert increment) (hbody : Statement body)
    (hid : root.subtree? id = some (.node d [init, cond, increment, body]))
    (ih : ∀ {k'}, root.subtree? k' = some body → root.Below k' k → Sealed root k h k' body) :
    Sealed root k h id (.node d [init, cond, increment, body]) := by
  obtain ⟨hstartId, htestId, hnextId, hbodyId⟩ := Tree.subtree?_children hid
  obtain ⟨hstartChild, htestChild, hnextChild, hbodyChild⟩ := Tree.isChild_children hid
  have hstatement := Statement.forLoop hkind hinit hcond hincrement hbody
  have hpos := size_pos init
  intro exit hexit
  rw [firstStep?_compound (.inr (.inr hkind))]
  by_cases hne : k = id
  · subst hne
    obtain rfl := hloop.eq_of_for hid
    refine ⟨starts_of_not_within fun hwithin => ?_, fun n m hedge _ => ?_⟩
    · have := hwithin.2
      omega
    · -- The initializer leads to the condition; the other steps are behind that.
      have hn := (hstatement.within exit k _ hedge).1
      rw [statementEdits_for hkind] at hedge
      rcases test_le_of_mem_for hbody hkind hinit hcond hincrement hn with rfl | hle
      · exact .inr ((ForLoop.edge_start hbody exit).mp hedge)
      · exact .inl ⟨hstatement.below_of_mem hid hn, hle⟩
  · have hstart := hinit.not_within hid hk hne hstartChild hstartId hloop
    have htest := hcond.not_within hid hk hne htestChild htestId hloop
    have hnext := hincrement.not_within hid hk hne hnextChild hnextId hloop
    obtain ⟨hfirst, hedges⟩ := hbody.sealed_of_child hid hk hne hbodyChild hbodyId (ih hbodyId) _
      (starts_of_not_within hnext)
    have hround := hfirst.or (starts_of_not_within hnext)
    rw [Option.or_some] at hround
    rw [statementEdits_for hkind, ForLoop.edits]
    refine ⟨starts_of_not_within hstart, enters_append.mpr ⟨enters_append.mpr ⟨?_, ?_⟩, ?_⟩⟩
    · refine enters_node_cons.mpr (enters_node_cons.mpr (enters_node_cons.mpr ?_))
      exact enters_edge_cons (starts_of_not_within htest) (enters_edge_cons hround enters_nil)
    · exact enters_edgeTo hexit
    · exact enters_edge_cons (starts_of_not_within htest) hedges

end Forms

/-- **A loop is entered at its condition** in each statement around it. -/
theorem Statement.sealed (ht : Statement t) (hloop : root.LoopTest k h)
    (hid : root.subtree? id = some t) (hk : root.Below id k) : Sealed root k h id t := by
  induction ht generalizing id with
  | block hkind parts ih => exact sealed_block hloop hk hkind parts hid fun c hc => ih c hc
  | plain hkind hinert => exact absurd (steps_plain hkind hinert) (not_below_step hloop hk hid)
  | returns hkind hinert => exact absurd (steps_return hkind hinert) (not_below_step hloop hk hid)
  | ifThen hkind hcond hbody ih => exact sealed_ifThen hloop hk hkind hcond hbody hid ih
  | ifElse hkind helse hcond hbody hother ih ih' =>
      exact sealed_ifElse hloop hk hkind helse hcond hbody hother hid ih ih'
  | whileLoop hkind hcond hbody ih => exact sealed_while hloop hk hkind hcond hbody hid ih
  | forLoop hkind hinit hcond hincrement hbody ih =>
      exact sealed_for hloop hk hkind hinit hcond hincrement hbody hid ih

end Steps

/-! ## Paths from the entry -/

namespace FlowGraph

/-- A path from the entry of a graph to a node. -/
structure Walk (g : FlowGraph) (p : List Nat) (n : Nat) : Prop where
  chain : p.IsChain fun a b => b ∈ g.successors a
  first : p.head? = g.entry
  last : p.getLast? = some n

/-- Every path from the entry to a node passes through another. -/
def Dominates (g : FlowGraph) (m n : Nat) : Prop := ∀ p, g.Walk p n → m ∈ p

variable {g : FlowGraph} {entry n m : Nat} {p q : List Nat}

/-- A path ends in the entry, or comes to its last node by an edge. -/
theorem Walk.cases (h : g.Walk (p ++ [n]) m) : m = n ∧
    ((p = [] ∧ g.entry = some n) ∨ ∃ k, g.Walk p k ∧ n ∈ g.successors k) := by
  have hm : m = n := by simpa using h.last.symm
  refine ⟨hm, ?_⟩
  rcases List.eq_nil_or_concat p with rfl | ⟨q, k, rfl⟩
  · exact .inl ⟨rfl, h.first.symm⟩
  · refine .inr ⟨k, ⟨?_, ?_, ?_⟩, ?_⟩
    · exact (List.isChain_append.mp h.chain).1
    · rw [← h.first, List.head?_append_of_ne_nil _ (by simp)]
    · simp
    · have := (List.isChain_append.mp h.chain).2.2
      simpa using this

/-- A trail of the search, turned round, is a path from the entry. -/
theorem Trail.walk (h : Trail g.successors entry (n :: q)) (hentry : g.entry = some entry) :
    g.Walk (n :: q).reverse n where
  chain := List.isChain_reverse.mpr h.chain
  first := by
    rw [List.head?_reverse, hentry]
    obtain ⟨k, hk⟩ := Option.ne_none_iff_exists'.mp
      (List.getLast?_eq_none_iff.not.mpr (List.cons_ne_nil n q))
    rw [hk, h.root_eq k hk]
  last := by simp

end FlowGraph

namespace Steps

variable {root t : Tree} {id k h n m : Nat}

/-- **The condition of a loop** lies on every path to the nodes of the loop behind it. -/
theorem Statement.dominates (ht : Statement t) (hid : root.subtree? id = some t)
    (hloop : root.LoopTest k h) (hk : root.Below id k) (hn : root.Within k h n) :
    (graph none id t).Dominates h n := by
  obtain ⟨hstart, hedges⟩ := ht.sealed hloop hid hk none starts_none
  intro p hp
  induction p using List.reverseRecOn generalizing n with
  | nil => cases hp.last
  | append_singleton p a ih =>
      obtain ⟨rfl, ⟨rfl, hentry⟩ | ⟨b, hb, hedge⟩⟩ := hp.cases
      · rw [ht.entry_graph] at hentry
        rw [hstart n hentry hn]
        exact List.mem_append_right _ List.mem_cons_self
      · rcases hedges b n (mem_successors_graph.mp hedge) hn with hwithin | rfl
        · exact List.mem_append_left _ (ih hwithin hb)
        · exact List.mem_append_right _ List.mem_cons_self

/-- **An edge back** leads to a node that every path from the entry to its source passes through. -/
theorem Statement.dominates_of_back (ht : Statement t) (hid : root.subtree? id = some t)
    (hn : root.Below id n) (hback : Back root id n m) : (graph none id t).Dominates m n := by
  obtain ⟨k, hle, hloop, hwithin⟩ := hback
  obtain ⟨u, hu, hkn, -⟩ := hwithin.1
  have hlt := ((Tree.below_iff hid).mp hn).2
  exact ht.dominates hid hloop ((Tree.below_iff hid).mpr (by omega)) hwithin

/-! ## Trails go onward -/

/-- Nodes of a tree that come one after another are different. -/
theorem Apart.nodup {first stop : Nat} {ns : List Nat} (h : Apart root first ns stop) :
    ns.Nodup := by
  induction h with
  | nil _ => exact List.nodup_nil
  | @cons first n stop ns s hle hs rest ih =>
      refine List.nodup_cons.mpr ⟨fun hn => ?_, ih⟩
      have := (rest.exists_subtree hn).1
      have := size_pos s
      omega

/-- No step that can be executed is listed twice. -/
theorem Statement.nodup_reached (ht : Statement t) (hid : root.subtree? id = some t) :
    (reached id t).Nodup := by
  obtain ⟨ns, hperm, hsublist⟩ := ht.reached_subperm id
  exact hperm.nodup_iff.mp ((ht.apart hid).nodup.sublist hsublist)

section Trails

variable {entry : Nat} {q : List Nat} (ht : Statement t) (hid : root.subtree? id = some t)
  (hentry : (graph none id t).entry = some entry)

include ht hid

/-- Where an edge leads from a step that is found. -/
theorem Statement.onward_graph (hn : n ∈ (graph none id t).postorder)
    (hm : m ∈ (graph none id t).successors n) :
    [n, m].Sublist (reached id t) ∨ Back root id n m := by
  rw [ht.mem_postorder_graph hid] at hn
  cases ht.onward hid (mem_successors_graph.mp hm) hn with
  | later hlater => exact .inl hlater
  | back hback _ => exact .inr hback
  | out hexit _ => cases hexit

include hentry

/-- **Trails go onward**: no step on a trail comes behind the last in the order of execution. -/
theorem Statement.idxOf_le_of_trail
    (htrail : FlowGraph.Trail (graph none id t).successors entry (n :: q)) :
    ∀ m ∈ n :: q, (reached id t).idxOf m ≤ (reached id t).idxOf n := by
  induction q generalizing n with
  | nil => simp
  | cons a q ih =>
      refine List.forall_mem_cons.mpr ⟨Nat.le_refl _, fun m hm => ?_⟩
      refine Nat.le_trans (ih htrail.tail m hm) ?_
      have hedge := (List.isChain_cons_cons.mp htrail.chain).1
      have ha := ht.closed_graph.mem_postorder_iff.mpr ⟨entry, hentry, htrail.tail.reaches⟩
      rcases ht.onward_graph hid ha hedge with hlater | hback
      · exact Nat.le_of_lt (idxOf_lt_of_sublist hlater (ht.nodup_reached hid))
      · -- The condition of a loop would be on the trail before.
        have hreached := (ht.mem_postorder_graph hid).mp ha
        have hbelow := ht.below_of_mem hid (ht.reached_subset id hreached)
        have hmem := ht.dominates_of_back hid hbelow hback _ (htrail.tail.walk hentry)
        exact absurd (List.mem_reverse.mp hmem) (List.nodup_cons.mp htrail.nodup).1

/-- **What leads back** to a step of the trail leads to the condition of a loop. -/
theorem Statement.back_of_trail
    (htrail : FlowGraph.Trail (graph none id t).successors entry (n :: q))
    (hn : n ∈ (graph none id t).postorder) (hm : m ∈ (graph none id t).successors n)
    (hmem : m ∈ n :: q) : Back root id n m := by
  refine (ht.onward_graph hid hn hm).resolve_left fun hlater => ?_
  have hlt := idxOf_lt_of_sublist hlater (ht.nodup_reached hid)
  have hle := ht.idxOf_le_of_trail hid hentry htrail m hmem
  omega

end Trails

/-- **An edge that does not lead on in reverse postorder** leads back to the condition of a loop. -/
theorem Statement.back_of_idxOf_le (ht : Statement t) (hid : root.subtree? id = some t)
    (hn : n ∈ (graph none id t).postorder) (hm : m ∈ (graph none id t).successors n)
    (hle : (graph none id t).reversePostorder.idxOf m ≤
      (graph none id t).reversePostorder.idxOf n) : Back root id n m := by
  rcases ht.closed_graph.before_or_trail hn hm with hlater | ⟨entry, q, hentry, htrail, hmem⟩
  · have := idxOf_lt_of_sublist hlater ht.closed_graph.nodup_reversePostorder
    omega
  · exact ht.back_of_trail hid hentry htrail hn hm hmem

/-- A path without conditions of loops leads on in reverse postorder. -/
theorem Statement.idxOf_lt_of_leads (ht : Statement t) (hid : root.subtree? id = some t)
    {between : List Nat} (hn : n ∈ (graph none id t).postorder)
    (hleads : (graph none id t).Leads n between m)
    (hnone : ∀ k h, root.LoopTest k h → h ∉ between ++ [m]) :
    (graph none id t).reversePostorder.idxOf n < (graph none id t).reversePostorder.idxOf m := by
  have hnext : ∀ {k a}, k ∈ (graph none id t).postorder → a ∈ (graph none id t).successors k →
      (∀ j h, root.LoopTest j h → h ≠ a) → (graph none id t).reversePostorder.idxOf k <
        (graph none id t).reversePostorder.idxOf a := by
    intro k a hk ha hnone
    by_contra hge
    obtain ⟨j, -, hloop, -⟩ := ht.back_of_idxOf_le hid hk ha (by omega)
    exact hnone j a hloop rfl
  induction between generalizing n with
  | nil =>
      exact hnext hn (FlowGraph.leads_nil.mp hleads) fun j h hloop heq =>
        hnone j h hloop (List.mem_singleton.mpr heq)
  | cons a between ih =>
      obtain ⟨hedge, hleads⟩ := FlowGraph.leads_cons.mp hleads
      have ha : a ∈ (graph none id t).postorder := by
        rw [ht.closed_graph.mem_postorder_iff] at hn ⊢
        obtain ⟨entry, hentry, hreaches⟩ := hn
        exact ⟨entry, hentry, hreaches.tail hedge⟩
      have hfirst := hnext hn hedge fun j h hloop heq =>
        hnone j h hloop (heq ▸ List.mem_cons_self)
      exact Nat.lt_trans hfirst (ih ha hleads fun j h hloop hmem =>
        hnone j h hloop (List.mem_cons_of_mem _ hmem))

end Steps

/-- **Cycles go through the conditions of loops.**  If an edge between steps that are found does
not lead on in reverse postorder, it leads back to the condition of a loop around its source, and
every path from the entry to the source passes through the condition.  So every cycle of such
steps passes through the condition of a loop. -/
theorem back_edges_to_conditions {source : Text} {d : Document} (h : parse source = .ok d) {m : Nat}
    (hm : m ∈ d.tree.methods) : ∃ g, d.arena.methodGraph m = .ok g ∧
      (∀ a b, a ∈ g.postorder → b ∈ g.successors a →
        g.reversePostorder.idxOf b ≤ g.reversePostorder.idxOf a →
          (∃ k, d.tree.LoopTest k b ∧ d.tree.Below k a) ∧ g.Dominates b a) ∧
      ∀ a between, a ∈ g.postorder → g.Leads a between a →
        ∃ k test, d.tree.LoopTest k test ∧ test ∈ a :: between := by
  obtain ⟨id, body, -, hid, hbody, hgraph⟩ := exists_methodBody h hm
  refine ⟨_, hgraph, fun a b ha hb hle => ?_, fun a between ha hleads => ?_⟩
  · have hback := hbody.back_of_idxOf_le hid ha hb hle
    have hbelow := hbody.below_of_mem hid
      (hbody.reached_subset id ((hbody.mem_postorder_graph hid).mp ha))
    refine ⟨?_, hbody.dominates_of_back hid hbelow hback⟩
    obtain ⟨k, -, hloop, hwithin⟩ := hback
    exact ⟨k, hloop, hwithin.1⟩
  · by_contra hnone
    refine Nat.lt_irrefl _ (hbody.idxOf_lt_of_leads hid ha hleads fun k test hloop hmem => ?_)
    refine hnone ⟨k, test, hloop, ?_⟩
    rw [List.mem_append, List.mem_singleton] at hmem
    exact List.mem_cons.mpr hmem.symm

/-- Two loops, one in the other: edges lead back to both conditions, and a cycle goes through
both. -/
theorem back_edges_to_conditions_nested : ∃ d g,
    parse "class A { void M() { while (a) for (b = 0; c; d) e = 1; } }".toList = .ok d ∧
      d.arena.methodGraph 2 = .ok g ∧
      ((∃ k, d.tree.LoopTest k 10 ∧ d.tree.Below k 11) ∧ g.Dominates 10 11) ∧
      ((∃ k, d.tree.LoopTest k 5 ∧ d.tree.Below k 10) ∧ g.Dominates 5 10) ∧
      ∃ k test, d.tree.LoopTest k test ∧ test ∈ [5, 7, 10] := by
  have hread : (parse
      "class A { void M() { while (a) for (b = 0; c; d) e = 1; } }".toList).toOption.any
        (fun d => d.tree.methods.contains 2 && (d.arena.methodGraph 2).toOption.all fun g =>
          [5, 10, 11].all g.postorder.contains && (g.successors 5).contains 7 &&
            (g.successors 7).contains 10 && (g.successors 10).contains 5 &&
            (g.successors 11).contains 10 &&
            decide (g.reversePostorder.idxOf 10 ≤ g.reversePostorder.idxOf 11 ∧
              g.reversePostorder.idxOf 5 ≤ g.reversePostorder.idxOf 10)) = true := by
    decide +kernel
  obtain ⟨d, hd, hfacts⟩ := exists_document_of_any hread
  rw [Bool.and_eq_true] at hfacts
  obtain ⟨hmethod, hfacts⟩ := hfacts
  obtain ⟨g, hgraph, hback, hcycle⟩ :=
    back_edges_to_conditions hd (m := 2) (List.contains_iff_mem.mp hmethod)
  rw [hgraph] at hfacts
  simp only [Except.toOption, Option.all_some, Bool.and_eq_true, List.all_cons, List.all_nil,
    and_true, List.contains_eq_mem, decide_eq_true_eq] at hfacts
  obtain ⟨⟨⟨⟨⟨h5, h10, h11⟩, hab⟩, hbc⟩, hca⟩, hnext⟩ := hfacts.1
  have hleads : g.Leads 5 [7, 10] 5 :=
    FlowGraph.leads_cons.mpr ⟨hab, FlowGraph.leads_cons.mpr ⟨hbc, FlowGraph.leads_nil.mpr hca⟩⟩
  exact ⟨d, g, hd, hgraph, hback 11 10 h11 hnext hfacts.2.1, hback 10 5 h10 hca hfacts.2.2,
    hcycle 5 [7, 10] h5 hleads⟩

end SharpMutants
