import SharpMutants.Proofs.Execution
import SharpMutants.Proofs.FlowGraph

/-!
# The graph of a body is its order of execution

`statementEdits` names the nodes and edges of a statement from the statement alone
and from the step after it.  What it names lies within the steps of the statement
(`Within`), so the edges from a step of the body are those of the innermost
statement around it.
-/

namespace SharpMutants

namespace Steps

section Equations

variable {exit : Option Nat} {id : Nat} {d e : Node} {cs : List Tree}
  {cond body other init increment : Tree}

/-- A block adds what its statements add. -/
theorem statementEdits_block (hkind : d.kind = .block) :
    statementEdits exit id (.node d cs) = statementsEdits exit (id + 1) cs := by
  cases d
  cases hkind
  rfl

/-- A plain statement adds its node and the edge to where it exits. -/
theorem statementEdits_plain (hkind : plain d.kind = true) :
    statementEdits exit id (.node d cs) = .node id :: edgeTo id exit := by
  rw [statementEdits.eq_def]
  dsimp only
  revert hkind
  cases d.kind <;> first | exact fun _ => rfl | (intro h; cases h)

/-- A return adds its node and no edge. -/
theorem statementEdits_return (hkind : d.kind = .returnStatement) :
    statementEdits exit id (.node d cs) = [.node id] := by
  cases d
  cases hkind
  rfl

/-- An `if` adds its condition, with edges to its branch and to where it exits. -/
theorem statementEdits_ifThen (hkind : d.kind = .ifStatement) :
    statementEdits exit id (.node d [cond, body]) =
      .node (id + 1) :: (edgeTo (id + 1) ((firstStep? (id + 1 + cond.size) body).or exit) ++
        (edgeTo (id + 1) exit ++ statementEdits exit (id + 1 + cond.size) body)) := by
  rw [statementEdits.eq_def]
  dsimp only
  rw [hkind]
  simp

/-- An `if` with two branches adds its condition, with edges to both. -/
theorem statementEdits_ifElse (hkind : d.kind = .ifStatement) (helse : e.kind = .elseClause) :
    statementEdits exit id (.node d [cond, body, .node e [other]]) =
      .node (id + 1) :: (edgeTo (id + 1) ((firstStep? (id + 1 + cond.size) body).or exit) ++
        (edgeTo (id + 1) ((firstStep? (id + 1 + cond.size + body.size + 1) other).or exit) ++
          (statementEdits exit (id + 1 + cond.size) body ++
            statementEdits exit (id + 1 + cond.size + body.size + 1) other))) := by
  rw [statementEdits.eq_def]
  dsimp only
  rw [hkind]
  simp [helse]

/-- A `while` adds its condition, with edges into its body, which comes back to it, and to its
exit. -/
theorem statementEdits_while (hkind : d.kind = .whileStatement) :
    statementEdits exit id (.node d [cond, body]) =
      .node (id + 1) ::
        .edge (id + 1) ((firstStep? (id + 1 + cond.size) body).getD (id + 1)) ::
          (edgeTo (id + 1) exit ++ statementEdits (some (id + 1)) (id + 1 + cond.size) body) := by
  rw [statementEdits.eq_def]
  dsimp only
  rw [hkind]
  simp

end Equations

/-- The edits of a loop that is followed by a step. -/
def ForLoop.edits (l : ForLoop) (exit : Option Nat) : List GraphEdit :=
  [.node l.start, .node l.test, .node l.next, .edge l.start l.test,
    .edge l.test ((firstStep? l.first l.body).getD l.next)] ++ edgeTo l.test exit ++
      .edge l.next l.test :: statementEdits (some l.next) l.first l.body

/-- A `for` adds its initializer, condition and increment, with the edges of the loop. -/
theorem statementEdits_for {exit : Option Nat} {id : Nat} {d : Node}
    {cond body init increment : Tree} (hkind : d.kind = .forStatement) :
    statementEdits exit id (.node d [init, cond, increment, body]) =
      ForLoop.edits ⟨id, init, cond, increment, body⟩ exit := by
  cases d
  cases hkind
  rfl

/-- The edges to a target are one or none. -/
theorem mem_edgeTo {n : Nat} {target : Option Nat} {e : GraphEdit} :
    e ∈ edgeTo n target ↔ ∃ m, target = some m ∧ e = .edge n m := by
  cases target <;> simp [edgeTo]

/-- An edge is one to a target if it ends there. -/
theorem edge_mem_edgeTo {k n m : Nat} {target : Option Nat} :
    .edge n m ∈ edgeTo k target ↔ n = k ∧ target = some m := by
  cases target <;> simp [edgeTo, eq_comm]

/-! ## The edges of a statement

Each is an edge from a step that the statement has of its own, or one of a part. -/

section Edges

variable {exit : Option Nat} {id n m : Nat} {d e : Node} {cs : List Tree} {cond body other : Tree}

/-- The edge of a plain statement leads to where it exits. -/
theorem edge_plain_iff (hkind : plain d.kind = true) :
    .edge n m ∈ statementEdits exit id (.node d cs) ↔ n = id ∧ exit = some m := by
  rw [statementEdits_plain hkind, List.mem_cons, edge_mem_edgeTo]
  simp

/-- A return has no edges. -/
theorem edge_return (hkind : d.kind = .returnStatement) :
    .edge n m ∉ statementEdits exit id (.node d cs) := by
  rw [statementEdits_return hkind]
  simp

/-- The edges of an `if` are those of its condition and those of its branch. -/
theorem edge_ifThen_iff (hkind : d.kind = .ifStatement) :
    .edge n m ∈ statementEdits exit id (.node d [cond, body]) ↔
      n = id + 1 ∧ ((firstStep? (id + 1 + cond.size) body).or exit = some m ∨ exit = some m) ∨
        .edge n m ∈ statementEdits exit (id + 1 + cond.size) body := by
  rw [statementEdits_ifThen hkind]
  simp only [List.mem_cons, reduceCtorEq, false_or, List.mem_append, edge_mem_edgeTo, and_or_left,
    or_assoc]

/-- The edges of an `if` with two branches are those of its condition and of both branches. -/
theorem edge_ifElse_iff (hkind : d.kind = .ifStatement) (helse : e.kind = .elseClause) :
    .edge n m ∈ statementEdits exit id (.node d [cond, body, .node e [other]]) ↔
      n = id + 1 ∧ ((firstStep? (id + 1 + cond.size) body).or exit = some m ∨
        (firstStep? (id + 1 + cond.size + body.size + 1) other).or exit = some m) ∨
      (.edge n m ∈ statementEdits exit (id + 1 + cond.size) body ∨
        .edge n m ∈ statementEdits exit (id + 1 + cond.size + body.size + 1) other) := by
  rw [statementEdits_ifElse hkind helse]
  simp only [List.mem_cons, reduceCtorEq, false_or, List.mem_append, edge_mem_edgeTo, and_or_left,
    or_assoc]

/-- The edges of a `while` are those of its condition and of its body. -/
theorem edge_while_iff (hkind : d.kind = .whileStatement) :
    .edge n m ∈ statementEdits exit id (.node d [cond, body]) ↔
      n = id + 1 ∧ (m = (firstStep? (id + 1 + cond.size) body).getD (id + 1) ∨ exit = some m) ∨
        .edge n m ∈ statementEdits (some (id + 1)) (id + 1 + cond.size) body := by
  rw [statementEdits_while hkind]
  simp only [List.mem_cons, reduceCtorEq, false_or, List.mem_append, edge_mem_edgeTo,
    GraphEdit.edge.injEq, and_or_left, or_assoc]

/-- **The edges of a `for`** are those of its three parts and of its body. -/
theorem ForLoop.edge_iff {l : ForLoop} :
    .edge n m ∈ l.edits exit ↔
      n = l.start ∧ m = l.test ∨
      n = l.test ∧ (m = (firstStep? l.first l.body).getD l.next ∨ exit = some m) ∨
      n = l.next ∧ m = l.test ∨
      .edge n m ∈ statementEdits (some l.next) l.first l.body := by
  simp only [ForLoop.edits, List.cons_append, List.nil_append, List.mem_cons, List.mem_append,
    reduceCtorEq, false_or, edge_mem_edgeTo, GraphEdit.edge.injEq, and_or_left, or_assoc]

end Edges

/-! What it says that the edges of a statement are among some edges. -/

section Among

variable {edits : List GraphEdit} {exit : Option Nat} {id : Nat} {d e : Node}
  {cond body other : Tree}

/-- The edge to a target is among the edits that hold it. -/
theorem edgeTo_subset {k : Nat} {target : Option Nat} (h : edgeTo k target ⊆ edits) {m : Nat}
    (hm : target = some m) : .edge k m ∈ edits := h (edge_mem_edgeTo.mpr ⟨rfl, hm⟩)

/-- The edits that hold an `if` hold its edges and its branch. -/
theorem among_ifThen (hkind : d.kind = .ifStatement)
    (h : statementEdits exit id (.node d [cond, body]) ⊆ edits) :
    (∀ m, (firstStep? (id + 1 + cond.size) body).or exit = some m → .edge (id + 1) m ∈ edits) ∧
      (∀ m, exit = some m → .edge (id + 1) m ∈ edits) ∧
      statementEdits exit (id + 1 + cond.size) body ⊆ edits := by
  rw [statementEdits_ifThen hkind] at h
  simp only [List.cons_subset, List.append_subset] at h
  obtain ⟨-, hbranch, hpast, hbody⟩ := h
  exact ⟨fun _ => edgeTo_subset hbranch, fun _ => edgeTo_subset hpast, hbody⟩

/-- The edits that hold an `if` with two branches hold its edges and both branches. -/
theorem among_ifElse (hkind : d.kind = .ifStatement) (helse : e.kind = .elseClause)
    (h : statementEdits exit id (.node d [cond, body, .node e [other]]) ⊆ edits) :
    (∀ m, (firstStep? (id + 1 + cond.size) body).or exit = some m → .edge (id + 1) m ∈ edits) ∧
      (∀ m, (firstStep? (id + 1 + cond.size + body.size + 1) other).or exit = some m →
        .edge (id + 1) m ∈ edits) ∧
      statementEdits exit (id + 1 + cond.size) body ⊆ edits ∧
      statementEdits exit (id + 1 + cond.size + body.size + 1) other ⊆ edits := by
  rw [statementEdits_ifElse hkind helse] at h
  simp only [List.cons_subset, List.append_subset] at h
  obtain ⟨-, hbranch, hbranch', hbody, hother⟩ := h
  exact ⟨fun _ => edgeTo_subset hbranch, fun _ => edgeTo_subset hbranch', hbody, hother⟩

/-- The edits that hold a `while` hold its edges and its body. -/
theorem among_while (hkind : d.kind = .whileStatement)
    (h : statementEdits exit id (.node d [cond, body]) ⊆ edits) :
    .edge (id + 1) ((firstStep? (id + 1 + cond.size) body).getD (id + 1)) ∈ edits ∧
      (∀ m, exit = some m → .edge (id + 1) m ∈ edits) ∧
      statementEdits (some (id + 1)) (id + 1 + cond.size) body ⊆ edits := by
  rw [statementEdits_while hkind] at h
  simp only [List.cons_subset, List.append_subset] at h
  obtain ⟨-, hround, hpast, hbody⟩ := h
  exact ⟨hround, fun _ => edgeTo_subset hpast, hbody⟩

/-- The edges of a `for` loop are among some edges. -/
structure ForLoop.Among (l : ForLoop) (exit : Option Nat) (edits : List GraphEdit) : Prop where
  enter : .edge l.start l.test ∈ edits
  round : .edge l.test ((firstStep? l.first l.body).getD l.next) ∈ edits
  past : ∀ m, exit = some m → .edge l.test m ∈ edits
  back : .edge l.next l.test ∈ edits
  part : statementEdits (some l.next) l.first l.body ⊆ edits

/-- The edits that hold a `for` hold its edges and its body. -/
theorem among_for {init increment : Tree} (hkind : d.kind = .forStatement)
    (h : statementEdits exit id (.node d [init, cond, increment, body]) ⊆ edits) :
    ForLoop.Among ⟨id, init, cond, increment, body⟩ exit edits := by
  rw [statementEdits_for hkind] at h
  simp only [ForLoop.edits, List.cons_subset, List.append_subset, List.nil_subset, and_true] at h
  obtain ⟨⟨⟨-, -, -, henter, hround⟩, hpast⟩, hback, hpart⟩ := h
  exact ⟨henter, hround, fun _ => edgeTo_subset hpast, hback, hpart⟩

end Among

/-! ## What the edits of a statement name -/

/-- Statements one after another begin with the first of their steps, if each does. -/
theorem firstStepOf?_eq {cs : List Tree}
    (h : ∀ c ∈ cs, ∀ id, firstStep? id c = (steps id c).head?) (id : Nat) :
    firstStepOf? id cs = (stepsOf id cs).head? := by
  induction cs generalizing id with
  | nil => rw [firstStepOf?, stepsOf_nil, List.head?_nil]
  | cons c cs ih =>
      rw [firstStepOf?, stepsOf_cons, List.head?_append, h c List.mem_cons_self,
        ih fun c hc => h c (List.mem_cons_of_mem _ hc)]

/-- A statement begins with the first of its steps. -/
theorem Statement.firstStep?_eq {t : Tree} (h : Statement t) (id : Nat) :
    firstStep? id t = (steps id t).head? := by
  induction h generalizing id with
  | block hkind _ ih => rw [firstStep?_block hkind, steps_block hkind, firstStepOf?_eq ih]
  | plain hkind hinert => rw [firstStep?_plain hkind, steps_plain hkind hinert, List.head?_cons]
  | returns hkind hinert =>
      rw [firstStep?_return hkind, steps_return hkind hinert, List.head?_cons]
  | ifThen hkind hcond _ _ =>
      rw [firstStep?_compound (.inl hkind), steps_ifThen hkind hcond, List.head?_cons]
  | ifElse hkind helse hcond _ _ _ _ =>
      rw [firstStep?_compound (.inl hkind), steps_ifElse hkind helse hcond, List.head?_cons]
  | whileLoop hkind hcond _ _ =>
      rw [firstStep?_compound (.inr (.inl hkind)), steps_while hkind hcond, List.head?_cons]
  | forLoop hkind hinit hcond hincrement _ _ =>
      rw [firstStep?_compound (.inr (.inr hkind)), steps_for hkind hinit hcond hincrement]
      rfl

/-- The step with which a statement begins, or the step after it, if it has none, is one of
these. -/
theorem Statement.mem_of_start {t : Tree} (h : Statement t) {id m : Nat} {exit : Option Nat}
    (hm : (firstStep? id t).or exit = some m) : m ∈ steps id t ∨ exit = some m := by
  rw [h.firstStep?_eq] at hm
  cases hsteps : steps id t with
  | nil =>
      rw [hsteps, List.head?_nil, Option.none_or] at hm
      exact .inr hm
  | cons n ns =>
      rw [hsteps, List.head?_cons, Option.some_or, Option.some.injEq] at hm
      exact .inl (hm ▸ List.mem_cons_self)

/-- Where a statement starts is one of its steps, unless it has none. -/
theorem Statement.getD_mem {t : Tree} (h : Statement t) (id m : Nat) :
    (firstStep? id t).getD m ∈ steps id t ∨ (firstStep? id t).getD m = m := by
  rcases h.mem_of_start (Option.or_some (a := m)) with hmem | heq
  · exact .inl hmem
  · exact .inr (Option.some.inj heq).symm

/-- Where statements start is one of their steps, or where they exit. -/
theorem mem_of_startOf {cs : List Tree} (h : ∀ c ∈ cs, Statement c) {id m : Nat}
    {exit : Option Nat} (hm : (firstStepOf? id cs).or exit = some m) :
    m ∈ stepsOf id cs ∨ exit = some m := by
  rw [firstStepOf?_eq fun c hc => (h c hc).firstStep?_eq] at hm
  cases hsteps : stepsOf id cs with
  | nil =>
      rw [hsteps, List.head?_nil, Option.none_or] at hm
      exact .inr hm
  | cons n ns =>
      rw [hsteps, List.head?_cons, Option.some_or, Option.some.injEq] at hm
      exact .inl (hm ▸ List.mem_cons_self)

/-- An edit names steps of a list, and as the target of an edge perhaps the step after them. -/
def Within (exit : Option Nat) (ss : List Nat) : GraphEdit → Prop
  | .node n => n ∈ ss
  | .edge n m => n ∈ ss ∧ (m ∈ ss ∨ exit = some m)
  | .entry _ => False

/-- An edit within some steps is within more. -/
theorem Within.mono {exit exit' : Option Nat} {ss ss' : List Nat} {e : GraphEdit}
    (h : Within exit ss e) (hss : ss ⊆ ss') (hexit : ∀ m, exit = some m → m ∈ ss' ∨ exit' = some m) :
    Within exit' ss' e := by
  cases e with
  | node n => exact hss h
  | edge n m => exact ⟨hss h.1, h.2.elim (fun hm => .inl (hss hm)) (hexit m)⟩
  | entry n => exact h

/-- An edge from a step to a step or the exit is within the steps. -/
theorem within_edgeTo {exit target : Option Nat} {ss : List Nat} {n : Nat} (hn : n ∈ ss)
    (htarget : ∀ m, target = some m → m ∈ ss ∨ exit = some m) :
    ∀ e ∈ edgeTo n target, Within exit ss e := by
  intro e he
  obtain ⟨m, hm, rfl⟩ := mem_edgeTo.mp he
  exact ⟨hn, htarget m hm⟩

/-- Statements one after another name their steps, if each does. -/
theorem within_statementsEdits {cs : List Tree} (hcs : ∀ c ∈ cs, Statement c)
    (h : ∀ c ∈ cs, ∀ exit id, ∀ e ∈ statementEdits exit id c, Within exit (steps id c) e)
    (exit : Option Nat) (id : Nat) :
    ∀ e ∈ statementsEdits exit id cs, Within exit (stepsOf id cs) e := by
  induction cs generalizing id with
  | nil =>
      rw [statementsEdits]
      nofun
  | cons c cs ih =>
      intro e he
      rw [statementsEdits] at he
      rw [stepsOf_cons]
      have hrest : ∀ c ∈ cs, Statement c := fun c hc => hcs c (List.mem_cons_of_mem _ hc)
      rcases List.mem_append.mp he with he | he
      · refine (h c List.mem_cons_self _ _ e he).mono (List.subset_append_left _ _) ?_
        intro m hm
        exact (mem_of_startOf hrest hm).imp_left (List.mem_append_right _)
      · exact (ih hrest (fun c hc => h c (List.mem_cons_of_mem _ hc)) _ e he).mono
          (List.subset_append_right _ _) (fun m => .inr)

/-- **The edits of a statement** name its steps. -/
theorem Statement.within {t : Tree} (h : Statement t) (exit : Option Nat) (id : Nat) :
    ∀ e ∈ statementEdits exit id t, Within exit (steps id t) e := by
  induction h generalizing exit id with
  | block hkind parts ih =>
      rw [statementEdits_block hkind, steps_block hkind]
      exact within_statementsEdits parts ih exit (id + 1)
  | plain hkind hinert =>
      rw [statementEdits_plain hkind, steps_plain hkind hinert]
      refine List.forall_mem_cons.mpr ⟨List.mem_singleton_self id, ?_⟩
      exact within_edgeTo (List.mem_singleton_self id) (fun m => .inr)
  | returns hkind hinert =>
      rw [statementEdits_return hkind, steps_return hkind hinert]
      exact List.forall_mem_singleton.mpr (List.mem_singleton_self id)
  | @ifThen d cond body hkind hcond hbody ih =>
      rw [statementEdits_ifThen hkind, steps_ifThen hkind hcond]
      refine List.forall_mem_cons.mpr ⟨List.mem_cons_self, ?_⟩
      simp only [List.forall_mem_append]
      refine ⟨within_edgeTo List.mem_cons_self fun m hm => ?_,
        within_edgeTo List.mem_cons_self fun m => .inr, fun e he => ?_⟩
      · exact (hbody.mem_of_start hm).imp_left (List.mem_cons_of_mem _)
      · exact (ih _ _ e he).mono (List.subset_cons_self _ _) fun m => .inr
  | @ifElse d e cond body other hkind helse hcond hbody hother ihBody ihOther =>
      rw [statementEdits_ifElse hkind helse, steps_ifElse hkind helse hcond]
      refine List.forall_mem_cons.mpr ⟨List.mem_cons_self, ?_⟩
      simp only [List.forall_mem_append]
      refine ⟨within_edgeTo List.mem_cons_self fun m hm => ?_,
        within_edgeTo List.mem_cons_self fun m hm => ?_, fun e he => ?_, fun e he => ?_⟩
      · exact (hbody.mem_of_start hm).imp_left fun hm =>
          List.mem_cons_of_mem _ (List.mem_append_left _ hm)
      · exact (hother.mem_of_start hm).imp_left fun hm =>
          List.mem_cons_of_mem _ (List.mem_append_right _ hm)
      · refine (ihBody _ _ e he).mono ?_ fun m => .inr
        exact List.subset_cons_of_subset _ (List.subset_append_left _ _)
      · refine (ihOther _ _ e he).mono ?_ fun m => .inr
        exact List.subset_cons_of_subset _ (List.subset_append_right _ _)
  | @whileLoop d cond body hkind hcond hbody ih =>
      rw [statementEdits_while hkind, steps_while hkind hcond]
      simp only [List.forall_mem_cons, List.forall_mem_append]
      refine ⟨List.mem_cons_self, ⟨List.mem_cons_self, .inl ?_⟩,
        within_edgeTo List.mem_cons_self fun m => .inr, fun e he => ?_⟩
      · exact List.mem_cons.mpr (hbody.getD_mem _ _).symm
      · refine (ih _ _ e he).mono (List.subset_cons_self _ _) fun m hm => .inl ?_
        exact Option.some.inj hm ▸ List.mem_cons_self
  | @forLoop d init cond increment body hkind hinit hcond hincrement hbody ih =>
      rw [statementEdits_for hkind, steps_for hkind hinit hcond hincrement]
      simp only [ForLoop.edits, ForLoop.first, ForLoop.next, ForLoop.test, ForLoop.start,
        List.forall_mem_cons, List.forall_mem_append, List.cons_append, List.nil_append]
      refine ⟨by simp [Within], by simp [Within], by simp [Within], by simp [Within],
        ⟨by simp, .inl ?_⟩, within_edgeTo (by simp) fun m => .inr, by simp [Within],
        fun e he => ?_⟩
      · rcases hbody.getD_mem (id + 1 + init.size + cond.size + increment.size)
          (id + 1 + init.size + cond.size) with h | h
        · simp [h]
        · rw [h]
          simp
      · refine (ih _ _ e he).mono (fun m hm => by simp [hm]) fun m hm => .inl ?_
        rw [← Option.some.inj hm]
        simp

/-- The steps of statements are all added. -/
theorem mem_statementsEdits {cs : List Tree}
    (h : ∀ c ∈ cs, ∀ exit id, ∀ n ∈ steps id c, .node n ∈ statementEdits exit id c)
    (exit : Option Nat) (id : Nat) :
    ∀ n ∈ stepsOf id cs, .node n ∈ statementsEdits exit id cs := by
  induction cs generalizing id with
  | nil =>
      rw [stepsOf_nil]
      nofun
  | cons c cs ih =>
      intro n hn
      rw [statementsEdits]
      rw [stepsOf_cons] at hn
      rcases List.mem_append.mp hn with hn | hn
      · exact List.mem_append_left _ (h c List.mem_cons_self _ _ n hn)
      · exact List.mem_append_right _ (ih (fun c hc => h c (List.mem_cons_of_mem _ hc)) _ n hn)

/-- Every step of a statement is named. -/
theorem Statement.node_mem {t : Tree} (h : Statement t) (exit : Option Nat) (id : Nat) :
    ∀ n ∈ steps id t, .node n ∈ statementEdits exit id t := by
  induction h generalizing exit id with
  | block hkind _ ih =>
      rw [statementEdits_block hkind, steps_block hkind]
      exact mem_statementsEdits ih exit (id + 1)
  | plain hkind hinert =>
      rw [statementEdits_plain hkind, steps_plain hkind hinert]
      simp
  | returns hkind hinert =>
      rw [statementEdits_return hkind, steps_return hkind hinert]
      simp
  | @ifThen d cond body hkind hcond hbody ih =>
      rw [statementEdits_ifThen hkind, steps_ifThen hkind hcond]
      intro n hn
      rcases List.mem_cons.mp hn with rfl | hn
      · exact List.mem_cons_self
      · have := ih exit _ n hn
        simp [this]
  | @ifElse d e cond body other hkind helse hcond hbody hother ihBody ihOther =>
      rw [statementEdits_ifElse hkind helse, steps_ifElse hkind helse hcond]
      intro n hn
      rcases List.mem_cons.mp hn with rfl | hn
      · exact List.mem_cons_self
      · rcases List.mem_append.mp hn with hn | hn
        · have := ihBody exit _ n hn
          simp [this]
        · have := ihOther exit _ n hn
          simp [this]
  | @whileLoop d cond body hkind hcond hbody ih =>
      rw [statementEdits_while hkind, steps_while hkind hcond]
      intro n hn
      rcases List.mem_cons.mp hn with rfl | hn
      · exact List.mem_cons_self
      · have := ih (some (id + 1)) _ n hn
        simp [this]
  | @forLoop d init cond increment body hkind hinit hcond hincrement hbody ih =>
      rw [statementEdits_for hkind, steps_for hkind hinit hcond hincrement]
      intro n hn
      rcases List.mem_append.mp hn with hn | hn
      · simp only [List.mem_cons, List.not_mem_nil, or_false] at hn
        rcases hn with rfl | rfl | rfl <;>
          simp [ForLoop.edits, ForLoop.next, ForLoop.test, ForLoop.start]
      · have := ih (some (id + 1 + init.size + cond.size)) _ n hn
        simp [ForLoop.edits, ForLoop.first, ForLoop.next, ForLoop.test, ForLoop.start, this]

/-- The numbers of the steps of trees in a row. -/
theorem stepsOf_range {cs : List Tree}
    (h : ∀ c ∈ cs, ∀ id, ∀ n ∈ steps id c, id ≤ n ∧ n < id + c.size) (id : Nat) :
    ∀ n ∈ stepsOf id cs, id ≤ n ∧ n < id + Tree.sizes cs := by
  induction cs generalizing id with
  | nil =>
      rw [stepsOf_nil]
      nofun
  | cons c cs ih =>
      intro n hn
      rw [stepsOf_cons] at hn
      rw [Tree.sizes]
      rcases List.mem_append.mp hn with hn | hn
      · have := h c List.mem_cons_self id n hn
        omega
      · have := ih (fun c hc => h c (List.mem_cons_of_mem _ hc)) (id + c.size) n hn
        omega

/-- The steps of a statement are nodes of its tree. -/
theorem Statement.range {t : Tree} (h : Statement t) (id : Nat) :
    ∀ n ∈ steps id t, id ≤ n ∧ n < id + t.size := by
  induction h generalizing id with
  | block hkind _ ih =>
      intro n hn
      rw [steps_block hkind] at hn
      have := stepsOf_range ih (id + 1) n hn
      rw [Tree.size]
      omega
  | plain hkind hinert =>
      intro n hn
      rw [steps_plain hkind hinert, List.mem_singleton] at hn
      rw [Tree.size]
      omega
  | returns hkind hinert =>
      intro n hn
      rw [steps_return hkind hinert, List.mem_singleton] at hn
      rw [Tree.size]
      omega
  | @ifThen d cond body hkind hcond hbody ih =>
      intro n hn
      rw [steps_ifThen hkind hcond, List.mem_cons] at hn
      have := size_pos cond
      simp only [Tree.size, Tree.sizes]
      rcases hn with rfl | hn
      · omega
      · have := ih _ n hn
        omega
  | @ifElse d e cond body other hkind helse hcond hbody hother ihBody ihOther =>
      intro n hn
      rw [steps_ifElse hkind helse hcond, List.mem_cons, List.mem_append] at hn
      have := size_pos cond
      simp only [Tree.size, Tree.sizes]
      rcases hn with rfl | hn | hn
      · omega
      · have := ihBody _ n hn
        omega
      · have := ihOther _ n hn
        omega
  | @whileLoop d cond body hkind hcond hbody ih =>
      intro n hn
      rw [steps_while hkind hcond, List.mem_cons] at hn
      have := size_pos cond
      simp only [Tree.size, Tree.sizes]
      rcases hn with rfl | hn
      · omega
      · have := ih _ n hn
        omega
  | @forLoop d init cond increment body hkind hinit hcond hincrement hbody ih =>
      intro n hn
      have := size_pos init
      have := size_pos cond
      have := size_pos increment
      simp only [Tree.size, Tree.sizes]
      rcases (mem_steps_for hkind hinit hcond hincrement).mp hn with rfl | rfl | rfl | hn
      · omega
      · omega
      · omega
      · have := ih _ n hn
        omega

section Loops

variable {d : Node} {init cond increment body : Tree} {id n : Nat} (hbody : Statement body)

include hbody

/-- All steps of a `while` loop come from its condition on. -/
theorem test_le_of_mem_while (hkind : d.kind = .whileStatement) (hcond : Inert cond)
    (hn : n ∈ steps id (.node d [cond, body])) : id + 1 ≤ n := by
  rw [steps_while hkind hcond, List.mem_cons] at hn
  rcases hn with rfl | hn
  · exact Nat.le_refl _
  · have := hbody.range _ n hn
    omega

/-- The steps of a `for` loop come from its condition on, but for the initializer. -/
theorem test_le_of_mem_for (hkind : d.kind = .forStatement) (hinit : Inert init)
    (hcond : Inert cond) (hincrement : Inert increment)
    (hn : n ∈ steps id (.node d [init, cond, increment, body])) :
    n = id + 1 ∨ id + 1 + init.size ≤ n := by
  rcases (mem_steps_for hkind hinit hcond hincrement).mp hn with rfl | rfl | rfl | hn
  · exact .inl rfl
  · exact .inr (Nat.le_refl _)
  · exact .inr (Nat.le_add_right _ _)
  · have := hbody.range _ n hn
    exact .inr (by omega)

end Loops

/-- The edges of a statement begin within its nodes. -/
theorem Statement.source_range {t : Tree} (h : Statement t) {exit : Option Nat} {id n m : Nat}
    (he : .edge n m ∈ statementEdits exit id t) : id ≤ n ∧ n < id + t.size :=
  h.range id n (h.within exit id _ he).1

/-- The edges of statements start among their nodes. -/
theorem source_rangeOf {cs : List Tree} (h : ∀ c ∈ cs, Statement c) {exit : Option Nat}
    {id n m : Nat} (he : .edge n m ∈ statementsEdits exit id cs) :
    id ≤ n ∧ n < id + Tree.sizes cs :=
  stepsOf_range (fun c hc => (h c hc).range) id n
    (within_statementsEdits h (fun c hc => (h c hc).within) exit id _ he).1

/-- The initializer of a loop comes behind the loop. -/
theorem ForLoop.id_lt (l : ForLoop) : l.id < l.start := Nat.lt_succ_self _

/-- The steps of a loop come in the order of its parts. -/
theorem ForLoop.ordered (l : ForLoop) : l.start < l.test ∧ l.test < l.next ∧ l.next < l.first := by
  have := size_pos l.init
  have := size_pos l.cond
  have := size_pos l.increment
  simp only [ForLoop.first, ForLoop.next, ForLoop.test, ForLoop.start]
  omega

section Sources

variable {t : Tree} {l : ForLoop} {exit : Option Nat} {id n m : Nat}

/-- No edge of a statement begins outside of its nodes. -/
theorem Statement.not_source (h : Statement t) (hn : ¬(id ≤ n ∧ n < id + t.size)) :
    .edge n m ∉ statementEdits exit id t := fun he => hn (h.source_range he)

variable (hbody : Statement l.body)

include hbody

/-- The body of a loop has no edges from its other parts. -/
theorem ForLoop.body_source (hn : n < l.first) :
    .edge n m ∉ statementEdits (some l.next) l.first l.body := hbody.not_source (by omega)

/-- The initializer of a loop is followed by its condition. -/
theorem ForLoop.edge_start (exit : Option Nat) :
    .edge l.start m ∈ l.edits exit ↔ m = l.test := by
  obtain ⟨hstart, htest, hnext⟩ := l.ordered
  simp [ForLoop.edge_iff, ForLoop.body_source hbody (n := l.start) (by omega),
    show l.start ≠ l.test by omega, show l.start ≠ l.next by omega]

/-- The condition of a loop is followed by its body, or by what comes behind the loop. -/
theorem ForLoop.edge_test : .edge l.test m ∈ l.edits exit ↔
    m = (firstStep? l.first l.body).getD l.next ∨ exit = some m := by
  obtain ⟨hstart, htest, hnext⟩ := l.ordered
  simp [ForLoop.edge_iff, ForLoop.body_source hbody (n := l.test) (by omega),
    show l.test ≠ l.start by omega, show l.test ≠ l.next by omega]

/-- The increment of a loop is followed by its condition. -/
theorem ForLoop.edge_next : .edge l.next m ∈ l.edits exit ↔ m = l.test := by
  obtain ⟨hstart, htest, hnext⟩ := l.ordered
  simp [ForLoop.edge_iff, ForLoop.body_source hbody (n := l.next) (by omega),
    show l.next ≠ l.start by omega, show l.next ≠ l.test by omega]

end Sources

/-! ## Stacks and edges -/

/-- The edges from the nodes of a range are those of a part of the edits. -/
def Owns (edits part : List GraphEdit) (lo hi : Nat) : Prop :=
  ∀ n m, lo ≤ n → n < hi → (.edge n m ∈ edits ↔ .edge n m ∈ part)

/-- Edits that own a range own each part of it. -/
theorem Owns.narrow {edits part part' : List GraphEdit} {lo hi lo' hi' : Nat}
    (h : Owns edits part lo hi) (hlo : lo ≤ lo') (hhi : hi' ≤ hi)
    (hpart : ∀ n m, lo' ≤ n → n < hi' → (.edge n m ∈ part ↔ .edge n m ∈ part')) :
    Owns edits part' lo' hi' := by
  intro n m hn hn'
  rw [h n m (by omega) (by omega), hpart n m hn hn']

/-! The nodes of a statement own what they have of their own and what the parts have. -/

section Parts

variable {edits : List GraphEdit} {exit : Option Nat} {id m : Nat} {d e : Node} {c : Tree}
  {cs : List Tree} {init cond increment body other : Tree}

/-- Edits that own statements own the first and the others. -/
theorem Owns.cons (h : Owns edits (statementsEdits exit id (c :: cs)) id (id + Tree.sizes (c :: cs)))
    (hc : Statement c) (hcs : ∀ c ∈ cs, Statement c) :
    Owns edits (statementEdits ((firstStepOf? (id + c.size) cs).or exit) id c) id (id + c.size) ∧
      Owns edits (statementsEdits exit (id + c.size) cs) (id + c.size)
        (id + c.size + Tree.sizes cs) := by
  rw [Tree.sizes] at h
  rw [statementsEdits] at h
  refine ⟨h.narrow (Nat.le_refl _) (by omega) fun n m hn hn' => ?_,
    h.narrow (by omega) (by omega) fun n m hn hn' => ?_⟩
  · refine List.mem_append.trans (or_iff_left fun hedge => ?_)
    have := source_rangeOf hcs hedge
    omega
  · exact List.mem_append.trans (or_iff_right (hc.not_source (by omega)))

/-- Edits that own a block own its statements. -/
theorem Owns.block (h : Owns edits (statementEdits exit id (.node d cs)) id
      (id + (Tree.node d cs).size)) (hkind : d.kind = .block) :
    Owns edits (statementsEdits exit (id + 1) cs) (id + 1) (id + 1 + Tree.sizes cs) := by
  rw [statementEdits_block hkind, Tree.size] at h
  exact h.narrow (by omega) (by omega) fun _ _ _ _ => Iff.rfl

/-- Edits that own a plain statement have its edge. -/
theorem Owns.plain (h : Owns edits (statementEdits exit id (.node d cs)) id
      (id + (Tree.node d cs).size)) (hkind : plain d.kind = true) :
    .edge id m ∈ edits ↔ exit = some m := by
  have hpos := size_pos (.node d cs)
  rw [h id m (Nat.le_refl _) (by omega), edge_plain_iff hkind, and_iff_right rfl]

/-- Edits that own a return have no edge from it. -/
theorem Owns.returns (h : Owns edits (statementEdits exit id (.node d cs)) id
      (id + (Tree.node d cs).size)) (hkind : d.kind = .returnStatement) :
    .edge id m ∉ edits := by
  have hpos := size_pos (.node d cs)
  rw [h id m (Nat.le_refl _) (by omega)]
  exact edge_return hkind

/-- Edits that own an `if` have the edges of its condition and own its branch. -/
theorem Owns.ifThen (h : Owns edits (statementEdits exit id (.node d [cond, body])) id
      (id + (Tree.node d [cond, body]).size)) (hkind : d.kind = .ifStatement)
    (hbody : Statement body) :
    (∀ m, .edge (id + 1) m ∈ edits ↔
      (firstStep? (id + 1 + cond.size) body).or exit = some m ∨ exit = some m) ∧
    Owns edits (statementEdits exit (id + 1 + cond.size) body) (id + 1 + cond.size)
      (id + 1 + cond.size + body.size) := by
  have hpos := size_pos cond
  simp only [Tree.size, Tree.sizes] at h
  refine ⟨fun m => ?_, h.narrow (by omega) (by omega) fun n m hn hn' => ?_⟩
  · rw [h _ m (by omega) (by omega), edge_ifThen_iff hkind,
      or_iff_left (hbody.not_source (by omega)), and_iff_right rfl]
  · rw [edge_ifThen_iff hkind, or_iff_right fun htest => by omega]

/-- Edits that own an `if` with two branches have the edges of its condition and own both
branches. -/
theorem Owns.ifElse (h : Owns edits (statementEdits exit id (.node d [cond, body, .node e [other]]))
      id (id + (Tree.node d [cond, body, .node e [other]]).size)) (hkind : d.kind = .ifStatement)
    (helse : e.kind = .elseClause) (hbody : Statement body) (hother : Statement other) :
    (∀ m, .edge (id + 1) m ∈ edits ↔ (firstStep? (id + 1 + cond.size) body).or exit = some m ∨
      (firstStep? (id + 1 + cond.size + body.size + 1) other).or exit = some m) ∧
    Owns edits (statementEdits exit (id + 1 + cond.size) body) (id + 1 + cond.size)
      (id + 1 + cond.size + body.size) ∧
    Owns edits (statementEdits exit (id + 1 + cond.size + body.size + 1) other)
      (id + 1 + cond.size + body.size + 1) (id + 1 + cond.size + body.size + 1 + other.size) := by
  have hpos := size_pos cond
  simp only [Tree.size, Tree.sizes] at h
  refine ⟨fun m => ?_, h.narrow (by omega) (by omega) fun n m hn hn' => ?_,
    h.narrow (by omega) (by omega) fun n m hn hn' => ?_⟩
  · rw [h _ m (by omega) (by omega), edge_ifElse_iff hkind helse,
      or_iff_left (not_or.mpr ⟨hbody.not_source (by omega), hother.not_source (by omega)⟩),
      and_iff_right rfl]
  · rw [edge_ifElse_iff hkind helse, or_iff_right fun htest => by omega,
      or_iff_left (hother.not_source (by omega))]
  · rw [edge_ifElse_iff hkind helse, or_iff_right fun htest => by omega,
      or_iff_right (hbody.not_source (by omega))]

/-- Edits that own a `while` have the edges of its condition and own its body. -/
theorem Owns.whileLoop (h : Owns edits (statementEdits exit id (.node d [cond, body])) id
      (id + (Tree.node d [cond, body]).size)) (hkind : d.kind = .whileStatement)
    (hbody : Statement body) :
    (∀ m, .edge (id + 1) m ∈ edits ↔
      m = (firstStep? (id + 1 + cond.size) body).getD (id + 1) ∨ exit = some m) ∧
    Owns edits (statementEdits (some (id + 1)) (id + 1 + cond.size) body) (id + 1 + cond.size)
      (id + 1 + cond.size + body.size) := by
  have hpos := size_pos cond
  simp only [Tree.size, Tree.sizes] at h
  refine ⟨fun m => ?_, h.narrow (by omega) (by omega) fun n m hn hn' => ?_⟩
  · rw [h _ m (by omega) (by omega), edge_while_iff hkind,
      or_iff_left (hbody.not_source (by omega)), and_iff_right rfl]
  · rw [edge_while_iff hkind, or_iff_right fun htest => by omega]

/-- Edits that own a `for` own its loop. -/
theorem Owns.forLoop (h : Owns edits (statementEdits exit id (.node d [init, cond, increment, body]))
      id (id + (Tree.node d [init, cond, increment, body]).size))
    (hkind : d.kind = .forStatement) :
    Owns edits (ForLoop.edits ⟨id, init, cond, increment, body⟩ exit) id
      (ForLoop.first ⟨id, init, cond, increment, body⟩ + body.size) := by
  rw [statementEdits_for hkind] at h
  simp only [Tree.size, Tree.sizes] at h
  refine h.narrow (Nat.le_refl _) ?_ fun _ _ _ _ => Iff.rfl
  simp only [ForLoop.first, ForLoop.next, ForLoop.test, ForLoop.start]
  omega

end Parts

section Loops

variable {edits : List GraphEdit} {l : ForLoop} {exit : Option Nat} {m : Nat}
  (h : Owns edits (l.edits exit) l.id (l.first + l.body.size)) (hbody : Statement l.body)

include h

/-- Edits that own a loop own its body. -/
theorem Owns.body : Owns edits (statementEdits (some l.next) l.first l.body) l.first
    (l.first + l.body.size) := by
  have hid := l.id_lt
  obtain ⟨hstart, htest, hnext⟩ := l.ordered
  refine h.narrow (by omega) (Nat.le_refl _) fun n m hn hn' => ?_
  rw [ForLoop.edge_iff, or_iff_right fun h => by omega, or_iff_right fun h => by omega,
    or_iff_right fun h => by omega]

include hbody

/-- Edits that own a loop have the edge from its initializer. -/
theorem Owns.start : .edge l.start m ∈ edits ↔ m = l.test := by
  have hid := l.id_lt
  obtain ⟨hstart, htest, hnext⟩ := l.ordered
  rw [h _ m (by omega) (by omega), ForLoop.edge_start hbody]

/-- Edits that own a loop have the edges from its condition. -/
theorem Owns.test : .edge l.test m ∈ edits ↔
    m = (firstStep? l.first l.body).getD l.next ∨ exit = some m := by
  have hid := l.id_lt
  obtain ⟨hstart, htest, hnext⟩ := l.ordered
  rw [h _ m (by omega) (by omega), ForLoop.edge_test hbody]

/-- Edits that own a loop have the edge from its increment. -/
theorem Owns.next : .edge l.next m ∈ edits ↔ m = l.test := by
  have hid := l.id_lt
  obtain ⟨hstart, htest, hnext⟩ := l.ordered
  rw [h _ m (by omega) (by omega), ForLoop.edge_next hbody]

end Loops

/-- The edges from the nodes of the work on a stack are those of the work, followed by the step
ahead of the rest of the stack. -/
inductive Fits (edits : List GraphEdit) : List Work → Prop
  | nil : Fits edits []
  | run {id : Nat} {t : Tree} {K : List Work} (ht : Statement t)
      (howns : Owns edits (statementEdits (ahead? K) id t) id (id + t.size)) (rest : Fits edits K) :
      Fits edits (.run id t :: K)
  | test {l : ForLoop} {K : List Work} (hbody : Statement l.body)
      (howns : Owns edits (l.edits (ahead? K)) l.id (l.first + l.body.size)) (rest : Fits edits K) :
      Fits edits (.test l :: K)
  | next {l : ForLoop} {K : List Work} (hbody : Statement l.body)
      (howns : Owns edits (l.edits (ahead? K)) l.id (l.first + l.body.size)) (rest : Fits edits K) :
      Fits edits (.next l :: K)

namespace Fits

variable {edits : List GraphEdit} {K K' : List Work} {n : Option Nat}

/-- Work that fits comes to an end. -/
theorem proper (h : Fits edits K) : Proper K := by
  induction h with
  | nil => nofun
  | run ht _ _ ih => exact List.forall_mem_cons.mpr ⟨ht, ih⟩
  | test hbody _ _ ih => exact List.forall_mem_cons.mpr ⟨hbody, ih⟩
  | next hbody _ _ ih => exact List.forall_mem_cons.mpr ⟨hbody, ih⟩

/-- A loop that is run again has its condition ahead. -/
theorem ahead?_while {id : Nat} {d : Node} {cond body : Tree} (hkind : d.kind = .whileStatement) :
    ahead? (.run id (.node d [cond, body]) :: K) = some (id + 1) := by
  rw [ahead?, firstStep?_compound (.inr (.inl hkind)), Option.some_or]

/-- Statements that are owned fit in front of work that fits. -/
theorem runs {cs : List Tree} {id : Nat} (hcs : ∀ c ∈ cs, Statement c)
    (howns : Owns edits (statementsEdits (ahead? K) id cs) id (id + Tree.sizes cs))
    (rest : Fits edits K) : Fits edits (Work.runs id cs ++ K) := by
  induction cs generalizing id with
  | nil => exact rest
  | cons c cs ih =>
      obtain ⟨hc, hrest⟩ := List.forall_mem_cons.mp hcs
      obtain ⟨hhere, hlater⟩ := howns.cons hc hrest
      rw [Work.runs, List.cons_append]
      refine .run hc ?_ (ih hrest hlater)
      rwa [ahead?_runs]

/-- Moves keep the edges of the work on a stack. -/
theorem move (h : Fits edits K) (hmove : Move K n K') : Fits edits K' := by
  cases h with
  | nil => cases hmove
  | @run id t K ht howns rest =>
      have hself := Fits.run ht howns rest
      cases ht with
      | block hkind parts =>
          obtain ⟨-, rfl⟩ := (move_block hkind).mp hmove
          exact .runs parts (howns.block hkind) rest
      | plain hkind hinert =>
          obtain ⟨-, rfl⟩ := (move_plain hkind).mp hmove
          exact rest
      | returns hkind hinert =>
          obtain ⟨-, rfl⟩ := (move_return hkind).mp hmove
          exact .nil
      | ifThen hkind hcond hbody =>
          obtain ⟨-, hpart⟩ := howns.ifThen hkind hbody
          obtain ⟨-, rfl | rfl⟩ := (move_ifThen hkind).mp hmove
          · exact .run hbody hpart rest
          · exact rest
      | ifElse hkind helse hcond hbody hother =>
          obtain ⟨-, hpart, hpart'⟩ := howns.ifElse hkind helse hbody hother
          obtain ⟨-, rfl | rfl⟩ := (move_ifElse hkind helse).mp hmove
          · exact .run hbody hpart rest
          · exact .run hother hpart' rest
      | whileLoop hkind hcond hbody =>
          obtain ⟨-, hpart⟩ := howns.whileLoop hkind hbody
          obtain ⟨-, rfl | rfl⟩ := (move_while hkind).mp hmove
          · refine .run hbody ?_ hself
            rwa [ahead?_while hkind]
          · exact rest
      | forLoop hkind hinit hcond hincrement hbody =>
          obtain ⟨-, rfl⟩ := (move_for hkind).mp hmove
          exact .test hbody (howns.forLoop hkind) rest
  | test hbody howns rest =>
      obtain ⟨-, rfl | rfl⟩ := move_test.mp hmove
      · exact .run hbody howns.body (.next hbody howns rest)
      · exact rest
  | next hbody howns rest =>
      obtain ⟨-, rfl⟩ := move_next.mp hmove
      exact .test hbody howns rest

/-- **The edges from a step** lead to the steps that may be ahead once it has been executed. -/
theorem edge_iff (h : Fits edits K) {n : Nat} (hmove : Move K (some n) K') (m : Nat) :
    .edge n m ∈ edits ↔ ∃ K', Move K (some n) K' ∧ ahead? K' = some m := by
  cases h with
  | nil => cases hmove
  | @run id t K ht howns rest =>
      cases ht with
      | block hkind parts =>
          obtain ⟨hnone, -⟩ := (move_block hkind).mp hmove
          cases hnone
      | plain hkind hinert =>
          obtain ⟨hid, -⟩ := (move_plain hkind).mp hmove
          obtain rfl : n = id := Option.some.inj hid
          simp [howns.plain hkind, move_plain hkind]
      | returns hkind hinert =>
          obtain ⟨hid, -⟩ := (move_return hkind).mp hmove
          obtain rfl : n = id := Option.some.inj hid
          simp [howns.returns hkind, move_return hkind, ahead?]
      | ifThen hkind hcond hbody =>
          obtain ⟨hid, -⟩ := (move_ifThen hkind).mp hmove
          obtain rfl : n = id + 1 := Option.some.inj hid
          rw [(howns.ifThen hkind hbody).1]
          simp [move_ifThen hkind, or_and_right, exists_or, ahead?]
      | ifElse hkind helse hcond hbody hother =>
          obtain ⟨hid, -⟩ := (move_ifElse hkind helse).mp hmove
          obtain rfl : n = id + 1 := Option.some.inj hid
          rw [(howns.ifElse hkind helse hbody hother).1]
          simp [move_ifElse hkind helse, or_and_right, exists_or, ahead?]
      | whileLoop hkind hcond hbody =>
          obtain ⟨hid, -⟩ := (move_while hkind).mp hmove
          obtain rfl : n = id + 1 := Option.some.inj hid
          rw [(howns.whileLoop hkind hbody).1]
          simp only [move_while hkind, true_and, or_and_right, exists_or, exists_eq_left]
          rw [ahead?, ahead?_while hkind]
          simp [eq_comm]
      | @forLoop d init cond increment body hkind hinit hcond hincrement hbody =>
          obtain ⟨hid, -⟩ := (move_for hkind).mp hmove
          obtain rfl : n = id + 1 := Option.some.inj hid
          have hstart := (howns.forLoop hkind).start hbody (m := m)
          rw [ForLoop.start] at hstart
          simp [hstart, move_for hkind, ahead?, eq_comm]
  | @test l K hbody howns rest =>
      obtain ⟨hid, -⟩ := move_test.mp hmove
      obtain rfl : n = l.test := Option.some.inj hid
      rw [howns.test hbody]
      simp only [move_test, true_and, or_and_right, exists_or, exists_eq_left]
      rw [ahead?, ahead?]
      simp [eq_comm]
  | @next l K hbody howns rest =>
      obtain ⟨hid, -⟩ := move_next.mp hmove
      obtain rfl : n = l.next := Option.some.inj hid
      rw [howns.next hbody]
      simp [move_next, ahead?, eq_comm]

end Fits

end Steps

end SharpMutants
