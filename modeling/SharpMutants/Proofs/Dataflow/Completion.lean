import SharpMutants.Proofs.Dataflow.Indexes

/-!
# Which steps are executed, and in which order

A statement can complete unless a `return` cuts it off (`Tree.completes`).  So it is told from the
tree alone which steps of a statement can be executed, and in which order they come for the first
time (`reached`): a row of statements goes as far as the first that cannot complete, and a `for`
loop comes to its incrementer if its body can complete.

Every edge from such a step leads onward in this order, or back to the condition of a loop around
the step, or out of the statement, if that can complete (`Statement.onward`).  In turn edges lead
from the first step of a statement to all of them, and out of the statement if it can complete
(`Statement.attained`).
-/

namespace SharpMutants

namespace Tree

mutual

/-- A statement can complete: what comes behind it may be executed. -/
def completes : Tree → Bool
  | .node d cs =>
    match d.kind, cs with
    | .returnStatement, _ => false
    | .block, body => completesAll body
    | .ifStatement, [_, body, .node _ (other :: _)] => body.completes || other.completes
    | _, _ => true

/-- Statements one after another can complete. -/
def completesAll : List Tree → Bool
  | [] => true
  | c :: cs => c.completes && completesAll cs

end

/-- The condition of a loop, by the node of the loop. -/
inductive LoopTest (t : Tree) : Nat → Nat → Prop
  | whileLoop {k : Nat} {d : Node} {cond body : Tree}
      (hloop : t.subtree? k = some (.node d [cond, body])) (hkind : d.kind = .whileStatement) :
      LoopTest t k (k + 1)
  | forLoop {k : Nat} {d : Node} {init cond increment body : Tree}
      (hloop : t.subtree? k = some (.node d [init, cond, increment, body]))
      (hkind : d.kind = .forStatement) : LoopTest t k (k + 1 + init.size)

/-- A node of a loop, from its condition on. -/
def Within (t : Tree) (k test n : Nat) : Prop := t.Below k n ∧ test ≤ n

end Tree

namespace Steps

mutual

/-- The steps of the statement at a node that can be executed, in the order in which they first
are. -/
def reached (id : Nat) : Tree → List Nat
  | .node d cs =>
    match d.kind, cs with
    | .block, body => reachedOf (id + 1) body
    | .ifStatement, cond :: body :: rest =>
      let first := id + 1 + cond.size
      (id + 1) :: (reached first body ++
        match rest with
        | .node _ (other :: _) :: _ => reached (first + body.size + 1) other
        | _ => [])
    | .whileStatement, cond :: body :: _ => (id + 1) :: reached (id + 1 + cond.size) body
    | .forStatement, [init, cond, increment, body] =>
      let test := id + 1 + init.size
      let next := test + cond.size
      (id + 1) :: test :: (reached (next + increment.size) body ++
        if body.completes then [next] else [])
    | .localDeclaration, _ | .expressionStatement, _ | .emptyStatement, _
    | .returnStatement, _ => [id]
    | _, _ => []

/-- The steps of statements one after another that can be executed. -/
def reachedOf (id : Nat) : List Tree → List Nat
  | [] => []
  | c :: cs => reached id c ++ if c.completes then reachedOf (id + c.size) cs else []

end

section Equations

variable {id : Nat} {d e : Node} {cs : List Tree} {cond body other init increment : Tree}

/-- A block completes if its statements do. -/
theorem completes_block (hkind : d.kind = .block) :
    (Tree.node d cs).completes = Tree.completesAll cs := by
  cases d
  cases hkind
  rfl

/-- A plain statement completes. -/
theorem completes_plain (hkind : plain d.kind = true) : (Tree.node d cs).completes = true := by
  rw [Tree.completes.eq_def]
  dsimp only
  revert hkind
  cases d.kind <;> first | exact fun _ => rfl | (intro h; cases h)

/-- A return does not complete. -/
theorem completes_return (hkind : d.kind = .returnStatement) :
    (Tree.node d cs).completes = false := by
  cases d
  cases hkind
  rfl

/-- An `if` completes, as its branch may be passed over. -/
theorem completes_ifThen (hkind : d.kind = .ifStatement) :
    (Tree.node d [cond, body]).completes = true := by
  cases d
  cases hkind
  rfl

/-- An `if` with two branches can complete if one of them can. -/
theorem completes_ifElse (hkind : d.kind = .ifStatement) :
    (Tree.node d [cond, body, .node e [other]]).completes =
      (body.completes || other.completes) := by
  cases d
  cases hkind
  rfl

/-- A loop can complete. -/
theorem completes_loop (hkind : d.kind = .whileStatement ∨ d.kind = .forStatement) :
    (Tree.node d cs).completes = true := by
  cases d
  rcases hkind with h | h <;> cases h <;> rfl

/-- In a block its statements can be executed, up to one that cannot complete. -/
theorem reached_block (hkind : d.kind = .block) :
    reached id (.node d cs) = reachedOf (id + 1) cs := by
  cases d
  cases hkind
  rfl

/-- A plain statement is one step, which can be executed. -/
theorem reached_plain (hkind : plain d.kind = true) : reached id (.node d cs) = [id] := by
  rw [reached.eq_def]
  dsimp only
  revert hkind
  cases d.kind <;> first | exact fun _ => rfl | (intro h; cases h)

/-- A `return` is one step, which can be executed. -/
theorem reached_return (hkind : d.kind = .returnStatement) : reached id (.node d cs) = [id] := by
  cases d
  cases hkind
  rfl

/-- In an `if` the condition can be executed, and what can be in its branch. -/
theorem reached_ifThen (hkind : d.kind = .ifStatement) :
    reached id (.node d [cond, body]) = (id + 1) :: reached (id + 1 + cond.size) body := by
  cases d
  cases hkind
  exact congrArg _ (List.append_nil _)

/-- In an `if` with two branches the condition can be executed, and what can be in both. -/
theorem reached_ifElse (hkind : d.kind = .ifStatement) :
    reached id (.node d [cond, body, .node e [other]]) =
      (id + 1) :: (reached (id + 1 + cond.size) body ++
        reached (id + 1 + cond.size + body.size + 1) other) := by
  cases d
  cases hkind
  rfl

/-- In a `while` the condition can be executed, and what can be in its body. -/
theorem reached_while (hkind : d.kind = .whileStatement) :
    reached id (.node d [cond, body]) = (id + 1) :: reached (id + 1 + cond.size) body := by
  cases d
  cases hkind
  rfl

/-- The steps of a loop that can be executed. -/
theorem reached_for (hkind : d.kind = .forStatement) :
    reached id (.node d [init, cond, increment, body]) =
      (id + 1) :: (id + 1 + init.size) ::
        (reached (id + 1 + init.size + cond.size + increment.size) body ++
          if body.completes then [id + 1 + init.size + cond.size] else []) := by
  cases d
  cases hkind
  rfl

/-- After a statement that can complete the next ones can be executed. -/
theorem reachedOf_cons_pos {c : Tree} (hc : c.completes = true) :
    reachedOf id (c :: cs) = reached id c ++ reachedOf (id + c.size) cs := by
  rw [reachedOf, if_pos hc]

/-- After a statement that cannot complete nothing can be executed. -/
theorem reachedOf_cons_neg {c : Tree} (hc : c.completes ≠ true) :
    reachedOf id (c :: cs) = reached id c := by
  rw [reachedOf, if_neg hc, List.append_nil]

end Equations

/-! ## Steps that can be executed are steps -/

/-- The steps that can be executed are among the steps of the statements, each as often at most. -/
theorem reachedOf_subperm {cs : List Tree} (h : ∀ c ∈ cs, ∀ id, (reached id c).Subperm (steps id c))
    (id : Nat) : (reachedOf id cs).Subperm (stepsOf id cs) := by
  induction cs generalizing id with
  | nil => exact List.nil_subperm
  | cons c cs ih =>
      obtain ⟨hc, hcs⟩ := List.forall_mem_cons.mp h
      rw [stepsOf_cons]
      by_cases hcompletes : c.completes = true
      · rw [reachedOf_cons_pos hcompletes]
        exact (hc id).append (ih hcs _)
      · rw [reachedOf_cons_neg hcompletes]
        exact (hc id).trans (List.sublist_append_left _ _).subperm

/-- **The steps that can be executed** are some of the steps. -/
theorem Statement.reached_subperm {t : Tree} (h : Statement t) (id : Nat) :
    (reached id t).Subperm (steps id t) := by
  induction h generalizing id with
  | block hkind _ ih =>
      rw [reached_block hkind, steps_block hkind]
      exact reachedOf_subperm ih _
  | plain hkind hinert => rw [reached_plain hkind, steps_plain hkind hinert]
  | returns hkind hinert => rw [reached_return hkind, steps_return hkind hinert]
  | ifThen hkind hcond _ ih =>
      rw [reached_ifThen hkind, steps_ifThen hkind hcond]
      exact (List.subperm_cons _).mpr (ih _)
  | ifElse hkind helse hcond _ _ ihBody ihOther =>
      rw [reached_ifElse hkind, steps_ifElse hkind helse hcond]
      exact (List.subperm_cons _).mpr ((ihBody _).append (ihOther _))
  | whileLoop hkind hcond _ ih =>
      rw [reached_while hkind, steps_while hkind hcond]
      exact (List.subperm_cons _).mpr (ih _)
  | @forLoop d init cond increment body hkind hinit hcond hincrement _ ih =>
      rw [reached_for hkind, steps_for hkind hinit hcond hincrement]
      -- The incrementer is listed behind the body here, and ahead of it among the steps.
      refine (List.subperm_cons _).mpr ((List.subperm_cons _).mpr ?_)
      refine List.perm_append_comm.subperm.trans ?_
      rw [← List.singleton_append]
      refine List.Subperm.append ?_ (ih _)
      split
      · exact List.Subperm.refl _
      · exact List.nil_subperm

/-- The steps that can be executed are among the steps of the statement. -/
theorem Statement.reached_subset {t : Tree} (h : Statement t) (id : Nat) :
    reached id t ⊆ steps id t := (h.reached_subperm id).subset

/-- A step of statements one after another is in their range. -/
theorem reachedOf_range {cs : List Tree} (h : ∀ c ∈ cs, Statement c) {id n : Nat}
    (hn : n ∈ reachedOf id cs) : id ≤ n ∧ n < id + Tree.sizes cs :=
  stepsOf_range (fun c hc => (h c hc).range) id n
    ((reachedOf_subperm (fun c hc => (h c hc).reached_subperm) id).subset hn)

/-! ## Edges lead onward -/

/-- The step with which statements one after another begin can be executed; without one they
complete. -/
theorem mem_reachedOf_of_start {cs : List Tree} {exit : Option Nat} {m : Nat}
    (h : ∀ c ∈ cs, ∀ id exit, (firstStep? id c).or exit = some m →
      m ∈ reached id c ∨ exit = some m ∧ c.completes = true) (id : Nat)
    (hm : (firstStepOf? id cs).or exit = some m) :
    m ∈ reachedOf id cs ∨ exit = some m ∧ Tree.completesAll cs = true := by
  induction cs generalizing id with
  | nil => exact .inr ⟨hm, rfl⟩
  | cons c cs ih =>
      obtain ⟨hc, hcs⟩ := List.forall_mem_cons.mp h
      rw [firstStepOf?, Option.or_assoc] at hm
      rcases hc id _ hm with hmem | ⟨hrest, hcompletes⟩
      · exact .inl (List.mem_append_left _ hmem)
      · rw [reachedOf_cons_pos hcompletes, Tree.completesAll, hcompletes, Bool.true_and]
        exact (ih hcs _ hrest).imp_left (List.mem_append_right _)

/-- **The step with which a statement begins** can be executed; a statement without steps
completes. -/
theorem Statement.mem_reached_of_start {t : Tree} (h : Statement t) {id m : Nat}
    {exit : Option Nat} (hm : (firstStep? id t).or exit = some m) :
    m ∈ reached id t ∨ exit = some m ∧ t.completes = true := by
  induction h generalizing id exit with
  | block hkind _ ih =>
      rw [firstStep?_block hkind] at hm
      rw [reached_block hkind, completes_block hkind]
      exact mem_reachedOf_of_start (fun c hc _ _ hm => ih c hc hm) _ hm
  | plain hkind _ =>
      rw [firstStep?_plain hkind, Option.some_or, Option.some.injEq] at hm
      rw [reached_plain hkind]
      exact .inl (List.mem_singleton.mpr hm.symm)
  | returns hkind _ =>
      rw [firstStep?_return hkind, Option.some_or, Option.some.injEq] at hm
      rw [reached_return hkind]
      exact .inl (List.mem_singleton.mpr hm.symm)
  | ifThen hkind _ _ _ =>
      rw [firstStep?_compound (.inl hkind), Option.some_or, Option.some.injEq] at hm
      rw [reached_ifThen hkind]
      exact .inl (hm ▸ List.mem_cons_self)
  | ifElse hkind _ _ _ _ _ _ =>
      rw [firstStep?_compound (.inl hkind), Option.some_or, Option.some.injEq] at hm
      rw [reached_ifElse hkind]
      exact .inl (hm ▸ List.mem_cons_self)
  | whileLoop hkind _ _ _ =>
      rw [firstStep?_compound (.inr (.inl hkind)), Option.some_or, Option.some.injEq] at hm
      rw [reached_while hkind]
      exact .inl (hm ▸ List.mem_cons_self)
  | forLoop hkind _ _ _ _ _ =>
      rw [firstStep?_compound (.inr (.inr hkind)), Option.some_or, Option.some.injEq] at hm
      rw [reached_for hkind]
      exact .inl (hm ▸ List.mem_cons_self)

/-- An edge that leads back to the condition of a loop around the step, within the subtree that
begins with a node. -/
def Back (root : Tree) (id n m : Nat) : Prop :=
  ∃ k, id ≤ k ∧ root.LoopTest k m ∧ root.Within k m n

/-- Where an edge leads from a step of a list that is followed by a step: to a later one of the
list, to the condition of a loop, or out. -/
inductive Onward (root : Tree) (id : Nat) (exit : Option Nat) (ss : List Nat) (completes : Bool)
    (n m : Nat) : Prop
  | later (hlater : [n, m].Sublist ss)
  | back (hback : Back root id n m) (hm : m ∈ ss)
  | out (hexit : exit = some m) (hcompletes : completes = true)

namespace Onward

variable {root : Tree} {id id' : Nat} {exit exit' : Option Nat} {ss ss' : List Nat} {c c' : Bool}
  {n m : Nat}

/-- What leads onward in a part of a statement does so in the whole, but for what leads out of the
part. -/
theorem mono (h : Onward root id exit ss c n m) (hid : id' ≤ id) (hss : ss.Sublist ss')
    (hout : exit = some m → c = true → Onward root id' exit' ss' c' n m) :
    Onward root id' exit' ss' c' n m := by
  cases h with
  | later hlater => exact .later (hlater.trans hss)
  | back hback hm =>
      obtain ⟨k, hk, hloop, hwithin⟩ := hback
      exact .back ⟨k, Nat.le_trans hid hk, hloop, hwithin⟩ (hss.subset hm)
  | out hexit hcompletes => exact hout hexit hcompletes

/-- An edge to a later step of a list leads onward from the first. -/
theorem first (hm : m ∈ ss) : Onward root id exit (n :: ss) c n m :=
  .later ((List.singleton_sublist.mpr hm).cons_cons n)

end Onward

/-- Edges lead onward from the steps of a statement that can be executed, wherever it stands. -/
def Orderly (root t : Tree) : Prop :=
  ∀ {exit : Option Nat} {id n m : Nat}, root.subtree? id = some t →
    .edge n m ∈ statementEdits exit id t → n ∈ reached id t →
      Onward root id exit (reached id t) t.completes n m

/-- Edges lead onward from the steps of a row of statements if they do in each of them. -/
theorem onwardOf {root : Tree} {cs : List Tree} (hcs : ∀ c ∈ cs, Statement c)
    (h : ∀ c ∈ cs, Orderly root c) {exit : Option Nat} {id n m : Nat}
    (hnumbers : ∀ n c, (n, c) ∈ Tree.numberFrom id cs → root.subtree? n = some c)
    (hedge : .edge n m ∈ statementsEdits exit id cs) (hn : n ∈ reachedOf id cs) :
    Onward root id exit (reachedOf id cs) (Tree.completesAll cs) n m := by
  induction cs generalizing id with
  | nil => cases hn
  | cons c cs ih =>
      obtain ⟨hc, hrest⟩ := List.forall_mem_cons.mp hcs
      obtain ⟨hfirst, hlater⟩ := List.forall_mem_cons.mp h
      simp only [Tree.numberFrom_cons, List.mem_cons] at hnumbers
      rw [statementsEdits] at hedge
      rcases List.mem_append.mp hedge with hedge | hedge
      · have hrange := hc.source_range hedge
        have hhere : n ∈ reached id c := by
          rw [reachedOf] at hn
          refine (List.mem_append.mp hn).resolve_right fun hn => ?_
          split at hn
          · have := reachedOf_range hrest hn
            omega
          · cases hn
        have honward := hfirst (hnumbers id c (.inl rfl)) hedge hhere
        refine honward.mono (Nat.le_refl id) (List.sublist_append_left _ _)
          fun hexit hcompletes => ?_
        -- The step after the first statement is the first of those behind it, if there is one.
        rcases mem_reachedOf_of_start (fun c hc _ _ => (hrest c hc).mem_reached_of_start) _ hexit
          with hm | ⟨hexit, hall⟩
        · rw [reachedOf_cons_pos hcompletes]
          exact .later ((List.singleton_sublist.mpr hhere).append (List.singleton_sublist.mpr hm))
        · exact .out hexit (by rw [Tree.completesAll, hcompletes, hall, Bool.true_and])
      · have hrange := source_rangeOf hrest hedge
        rw [reachedOf] at hn
        rcases List.mem_append.mp hn with hn | hn
        · have := hc.range id n (hc.reached_subset id hn)
          omega
        · split at hn
          · rename_i hcompletes
            have honward := ih hrest hlater (fun n c hc => hnumbers n c (.inr hc)) hedge hn
            rw [reachedOf_cons_pos hcompletes, Tree.completesAll, hcompletes, Bool.true_and]
            exact honward.mono (Nat.le_add_right _ _) (List.sublist_append_right _ _)
              fun hexit hall => .out hexit hall
          · cases hn

section Forms

variable {root : Tree} {d e : Node} {cs : List Tree} {init cond increment body other : Tree}

/-- Control goes on with the step with which a branch begins, or past a branch without steps. -/
theorem Statement.onward_into {t : Tree} (h : Statement t) {exit : Option Nat} {id id' n m : Nat}
    {ss : List Nat} {completes : Bool} (hstart : (firstStep? id' t).or exit = some m)
    (hss : reached id' t ⊆ ss) (hcompletes : t.completes = true → completes = true) :
    Onward root id exit (n :: ss) completes n m := by
  rcases h.mem_reached_of_start hstart with hm | ⟨hexit, hthrough⟩
  · exact .first (hss hm)
  · exact .out hexit (hcompletes hthrough)

/-- A block is orderly, if its statements are. -/
theorem orderly_block (hkind : d.kind = .block) (hcs : ∀ c ∈ cs, Statement c)
    (h : ∀ c ∈ cs, Orderly root c) : Orderly root (.node d cs) := by
  intro exit id n m hid hedge hn
  rw [statementEdits_block hkind] at hedge
  rw [reached_block hkind] at hn ⊢
  rw [completes_block hkind]
  have honward := onwardOf hcs h (fun n c hc => Tree.subtree?_of_mem_numberFrom hid hc) hedge hn
  exact honward.mono (Nat.le_succ id) (List.Sublist.refl _) .out

/-- A plain statement is orderly. -/
theorem orderly_plain (hkind : plain d.kind = true) : Orderly root (.node d cs) := by
  intro exit id n m _ hedge _
  obtain ⟨-, hexit⟩ := (edge_plain_iff hkind).mp hedge
  exact .out hexit (completes_plain hkind)

/-- An `if` is orderly, if its branch is. -/
theorem orderly_ifThen (hkind : d.kind = .ifStatement) (hbody : Statement body)
    (h : Orderly root body) : Orderly root (.node d [cond, body]) := by
  intro exit id n m hid hedge hn
  obtain ⟨-, hbodyId⟩ := Tree.subtree?_children hid
  have hpos := size_pos cond
  rw [reached_ifThen hkind] at hn ⊢
  rw [completes_ifThen hkind]
  rcases (edge_ifThen_iff hkind).mp hedge with ⟨rfl, hstart | hexit⟩ | hedge
  · exact hbody.onward_into hstart (List.Subset.refl _) fun _ => rfl
  · exact .out hexit rfl
  · have hsource := hbody.source_range hedge
    have hn := (List.mem_cons.mp hn).resolve_left (by omega)
    exact (h hbodyId hedge hn).mono (by omega) (List.sublist_cons_self _ _)
      fun hexit _ => .out hexit rfl

/-- An `if` with two branches is orderly, if both are. -/
theorem orderly_ifElse (hkind : d.kind = .ifStatement) (helse : e.kind = .elseClause)
    (hbody : Statement body) (hother : Statement other) (h : Orderly root body)
    (h' : Orderly root other) : Orderly root (.node d [cond, body, .node e [other]]) := by
  intro exit id n m hid hedge hn
  obtain ⟨-, hbodyId, hclause⟩ := Tree.subtree?_children hid
  have hotherId : root.subtree? (id + 1 + cond.size + body.size + 1) = some other :=
    Tree.subtree?_children hclause
  have hpos := size_pos cond
  rw [reached_ifElse hkind] at hn ⊢
  rw [completes_ifElse hkind]
  have hthrough : body.completes = true → (body.completes || other.completes) = true :=
    fun hcompletes => Bool.or_eq_true_iff.mpr (.inl hcompletes)
  have hthrough' : other.completes = true → (body.completes || other.completes) = true :=
    fun hcompletes => Bool.or_eq_true_iff.mpr (.inr hcompletes)
  rcases (edge_ifElse_iff hkind helse).mp hedge with ⟨rfl, hstart | hstart⟩ | hedge | hedge
  · exact hbody.onward_into hstart (List.subset_append_left _ _) hthrough
  · exact hother.onward_into hstart (List.subset_append_right _ _) hthrough'
  · have hsource := hbody.source_range hedge
    have hn : n ∈ reached (id + 1 + cond.size) body := by
      refine (List.mem_append.mp ((List.mem_cons.mp hn).resolve_left (by omega))).resolve_right
        fun hn => ?_
      have := hother.range _ n (hother.reached_subset _ hn)
      omega
    exact (h hbodyId hedge hn).mono (by omega)
      ((List.sublist_append_left _ _).trans (List.sublist_cons_self _ _))
      fun hexit hcompletes => .out hexit (hthrough hcompletes)
  · have hsource := hother.source_range hedge
    have hn : n ∈ reached (id + 1 + cond.size + body.size + 1) other := by
      refine (List.mem_append.mp ((List.mem_cons.mp hn).resolve_left (by omega))).resolve_left
        fun hn => ?_
      have := hbody.range _ n (hbody.reached_subset _ hn)
      omega
    exact (h' hotherId hedge hn).mono (by omega)
      ((List.sublist_append_right _ _).trans (List.sublist_cons_self _ _))
      fun hexit hcompletes => .out hexit (hthrough' hcompletes)

/-- A `while` is orderly, if its body is. -/
theorem orderly_while (hkind : d.kind = .whileStatement) (hbody : Statement body)
    (h : Orderly root body) : Orderly root (.node d [cond, body]) := by
  intro exit id n m hid hedge hn
  obtain ⟨htestId, hbodyId⟩ := Tree.subtree?_children hid
  have hpos := size_pos cond
  -- Whatever step of the loop it is, control is back at the condition.
  have hback : ∀ {n}, id + 1 ≤ n → n < id + 1 + cond.size + body.size →
      Onward root id exit ((id + 1) :: reached (id + 1 + cond.size) body) true n (id + 1) := by
    intro n hle hlt
    refine .back ⟨id, Nat.le_refl id, .whileLoop hid hkind, (Tree.below_iff hid).mpr ?_, hle⟩
      List.mem_cons_self
    simp only [Tree.size, Tree.sizes]
    omega
  rw [reached_while hkind] at hn ⊢
  rw [completes_loop (.inl hkind)]
  rcases (edge_while_iff hkind).mp hedge with ⟨rfl, rfl | hexit⟩ | hedge
  · rcases hbody.mem_reached_of_start (Option.or_some (a := id + 1)) with hm | ⟨hempty, -⟩
    · exact .first hm
    · -- Without steps in the body the condition is evaluated again.
      rw [← Option.some.inj hempty]
      exact hback (Nat.le_refl _) (by omega)
  · exact .out hexit rfl
  · have hsource := hbody.source_range hedge
    have hn := (List.mem_cons.mp hn).resolve_left (by omega)
    refine (h hbodyId hedge hn).mono (by omega) (List.sublist_cons_self _ _) fun hexit _ => ?_
    obtain rfl := Option.some.inj hexit
    exact hback (by omega) (by omega)

/-- A `for` is orderly, if its body is. -/
theorem orderly_for (hkind : d.kind = .forStatement) (hbody : Statement body)
    (h : Orderly root body) : Orderly root (.node d [init, cond, increment, body]) := by
  intro exit id n m hid hedge hn
  obtain ⟨-, -, -, hbodyId⟩ := Tree.subtree?_children hid
  have hinit := size_pos init
  have hcond := size_pos cond
  have hincrement := size_pos increment
  rw [statementEdits_for hkind, ForLoop.edge_iff] at hedge
  simp only [ForLoop.start, ForLoop.test, ForLoop.next, ForLoop.first] at hedge
  rw [reached_for hkind] at hn ⊢
  rw [completes_loop (.inr hkind)]
  rcases hedge with ⟨rfl, rfl⟩ | ⟨rfl, rfl | hexit⟩ | ⟨rfl, rfl⟩ | hedge
  · exact .first List.mem_cons_self
  · refine .later (.cons _ (List.Sublist.cons_cons _ (List.singleton_sublist.mpr ?_)))
    rcases hbody.mem_reached_of_start
      (Option.or_some (a := id + 1 + init.size + cond.size)) with hm | ⟨hempty, hcompletes⟩
    · exact List.mem_append_left _ hm
    · rw [← Option.some.inj hempty, if_pos hcompletes]
      exact List.mem_append_right _ List.mem_cons_self
  · exact .out hexit rfl
  · refine .back ⟨id, Nat.le_refl id, .forLoop hid hkind, (Tree.below_iff hid).mpr ?_, by omega⟩
      (List.mem_cons_of_mem _ List.mem_cons_self)
    simp only [Tree.size, Tree.sizes]
    omega
  · have hsource := hbody.source_range hedge
    have hn : n ∈ reached (id + 1 + init.size + cond.size + increment.size) body := by
      have hn := (List.mem_cons.mp ((List.mem_cons.mp hn).resolve_left (by omega))).resolve_left
        (by omega)
      refine (List.mem_append.mp hn).resolve_right fun hn => ?_
      split at hn
      · have := List.mem_singleton.mp hn
        omega
      · cases hn
    refine (h hbodyId hedge hn).mono (by omega) ?_ fun hexit hcompletes => ?_
    · exact (List.sublist_append_left _ _).trans
        ((List.sublist_cons_self _ _).trans (List.sublist_cons_self _ _))
    · obtain rfl := Option.some.inj hexit
      refine .later (.cons _ (.cons _ ?_))
      rw [if_pos hcompletes]
      exact (List.singleton_sublist.mpr hn).append (List.Sublist.refl _)

end Forms

/-- **The edges of a statement**, from the steps that can be executed, lead onward. -/
theorem Statement.onward {root t : Tree} (h : Statement t) : Orderly root t := by
  induction h with
  | block hkind parts ih => exact orderly_block hkind parts ih
  | plain hkind _ => exact orderly_plain hkind
  | returns hkind _ => exact fun _ hedge _ => absurd hedge (edge_return hkind)
  | ifThen hkind _ hbody ih => exact orderly_ifThen hkind hbody ih
  | ifElse hkind helse _ hbody hother ih ih' => exact orderly_ifElse hkind helse hbody hother ih ih'
  | whileLoop hkind _ hbody ih => exact orderly_while hkind hbody ih
  | forLoop hkind _ _ _ hbody ih => exact orderly_for hkind hbody ih

/-! ## Edges lead to every step -/

/-- Edges lead from one step to another. -/
def Leading (edits : List GraphEdit) : Nat → Nat → Prop :=
  Relation.ReflTransGen fun n m => .edge n m ∈ edits

/-- Edges lead from a step to those of a list, and to the step after them if they complete. -/
structure Attained (edits : List GraphEdit) (exit : Option Nat) (ss : List Nat) (completes : Bool)
    (source : Nat) : Prop where
  steps : ∀ n ∈ ss, Leading edits source n
  exit : completes = true → ∀ n, exit = some n → Leading edits source n

variable {edits : List GraphEdit}

/-- Edges lead to the steps of a row of statements that can be executed, if they do in each of
them. -/
theorem attainedOf {cs : List Tree}
    (h : ∀ c ∈ cs, ∀ exit id k, statementEdits exit id c ⊆ edits →
      (∀ n, (firstStep? id c).or exit = some n → Leading edits k n) →
        Attained edits exit (reached id c) c.completes k)
    {exit : Option Nat} {id k : Nat} (hedits : statementsEdits exit id cs ⊆ edits)
    (hstart : ∀ n, (firstStepOf? id cs).or exit = some n → Leading edits k n) :
    Attained edits exit (reachedOf id cs) (Tree.completesAll cs) k := by
  induction cs generalizing id with
  | nil => exact ⟨by simp [reachedOf], fun _ => hstart⟩
  | cons c cs ih =>
      obtain ⟨hhere, hlater⟩ := List.forall_mem_cons.mp h
      rw [statementsEdits, List.append_subset] at hedits
      simp only [firstStepOf?, Option.or_assoc] at hstart
      have hfirst := hhere _ id k hedits.1 hstart
      by_cases hcompletes : c.completes = true
      · have hrest := ih hlater hedits.2 (hfirst.exit hcompletes)
        rw [reachedOf_cons_pos hcompletes, Tree.completesAll, hcompletes, Bool.true_and]
        exact ⟨List.forall_mem_append.mpr ⟨hfirst.steps, hrest.steps⟩, hrest.exit⟩
      · rw [reachedOf_cons_neg hcompletes, Tree.completesAll,
          Bool.eq_false_of_not_eq_true hcompletes]
        exact ⟨hfirst.steps, by simp⟩

/-- **Every step that can be executed** is attained from where edges lead to the first, or to the
step after the statement if there is none. -/
theorem Statement.attained {t : Tree} (h : Statement t) {exit : Option Nat} {id k : Nat}
    (hedits : statementEdits exit id t ⊆ edits)
    (hstart : ∀ n, (firstStep? id t).or exit = some n → Leading edits k n) :
    Attained edits exit (reached id t) t.completes k := by
  induction h generalizing exit id k with
  | block hkind _ ih =>
      rw [statementEdits_block hkind] at hedits
      rw [firstStep?_block hkind] at hstart
      rw [reached_block hkind, completes_block hkind]
      exact attainedOf (fun c hc _ _ _ hedits hstart => ih c hc hedits hstart) hedits hstart
  | plain hkind _ =>
      rw [firstStep?_plain hkind] at hstart
      have hfirst := hstart _ rfl
      rw [reached_plain hkind]
      refine ⟨List.forall_mem_singleton.mpr hfirst, fun _ n hn => hfirst.tail (hedits ?_)⟩
      simp [statementEdits_plain hkind, mem_edgeTo, hn]
  | returns hkind _ =>
      rw [firstStep?_return hkind] at hstart
      rw [reached_return hkind, completes_return hkind]
      exact ⟨List.forall_mem_singleton.mpr (hstart _ rfl), nofun⟩
  | ifThen hkind _ _ ih =>
      rw [firstStep?_compound (.inl hkind)] at hstart
      have htest := hstart _ rfl
      obtain ⟨hbranch, hpast, hbody⟩ := among_ifThen hkind hedits
      have hattained := ih hbody fun n hn => htest.tail (hbranch n hn)
      rw [reached_ifThen hkind]
      exact ⟨List.forall_mem_cons.mpr ⟨htest, hattained.steps⟩,
        fun _ n hn => htest.tail (hpast n hn)⟩
  | ifElse hkind helse _ _ _ ihBody ihOther =>
      rw [firstStep?_compound (.inl hkind)] at hstart
      have htest := hstart _ rfl
      obtain ⟨hbranch, hbranch', hbody, hother⟩ := among_ifElse hkind helse hedits
      have hattained := ihBody hbody fun n hn => htest.tail (hbranch n hn)
      have hattained' := ihOther hother fun n hn => htest.tail (hbranch' n hn)
      rw [reached_ifElse hkind, completes_ifElse hkind]
      refine ⟨List.forall_mem_cons.mpr ⟨htest, ?_⟩, fun hcompletes => ?_⟩
      · exact List.forall_mem_append.mpr ⟨hattained.steps, hattained'.steps⟩
      · rcases Bool.or_eq_true_iff.mp hcompletes with hcompletes | hcompletes
        · exact hattained.exit hcompletes
        · exact hattained'.exit hcompletes
  | @whileLoop d cond body hkind _ _ ih =>
      rw [firstStep?_compound (.inr (.inl hkind))] at hstart
      have htest := hstart _ rfl
      obtain ⟨hround, hpast, hbody⟩ := among_while hkind hedits
      have hattained := ih hbody fun n hn => by
        rw [Option.or_some, Option.some.injEq] at hn
        exact htest.tail (hn ▸ hround)
      rw [reached_while hkind]
      exact ⟨List.forall_mem_cons.mpr ⟨htest, hattained.steps⟩,
        fun _ n hn => htest.tail (hpast n hn)⟩
  | @forLoop d init cond increment body hkind _ _ _ _ ih =>
      rw [firstStep?_compound (.inr (.inr hkind))] at hstart
      have hinit := hstart _ rfl
      have hamong := among_for hkind hedits
      have htest := hinit.tail hamong.enter
      have hattained := ih hamong.part fun n hn => by
        rw [Option.or_some, Option.some.injEq] at hn
        exact htest.tail (hn ▸ hamong.round)
      rw [reached_for hkind]
      refine ⟨List.forall_mem_cons.mpr ⟨hinit, List.forall_mem_cons.mpr ⟨htest, ?_⟩⟩,
        fun _ n hn => htest.tail (hamong.past n hn)⟩
      refine List.forall_mem_append.mpr ⟨hattained.steps, fun n hn => ?_⟩
      split at hn
      · rename_i hcompletes
        exact hattained.exit hcompletes n (congrArg some (List.mem_singleton.mp hn).symm)
      · cases hn

end Steps

end SharpMutants
