import SharpMutants.Proofs.Check.Returns

/-!
# Assigned locals along an evaluation

A local is assigned at a place of a run if it has been assigned there, since its
declaration was last executed (`Assigned`).  The check follows a run (`Tracks`) if every
name that it takes for assigned stands for an assigned local, or for one that is free of
this promise.  A read that no error is found in is then one of an assigned local
(`Safe`), and each operation of the check carries that on along the events of the
evaluation (`Follows`), so checking an expression does: `follows_expression`.
-/

namespace SharpMutants

namespace Execution

/-- A local has been assigned, since its declaration was last executed. -/
def Assigned (tr : List Event) (ℓ : Nat) : Prop :=
  ∃ before since, tr = before ++ .assigns ℓ :: since ∧ .declares ℓ ∉ since

/-- After a trace every read of a local that is not free comes after an assignment. -/
def Safe (free : Nat → Prop) (tr ev : List Event) : Prop :=
  ∀ pre ℓ post, ev = pre ++ .reads ℓ :: post → Assigned (tr ++ pre) ℓ ∨ free ℓ

section Traces

variable {free : Nat → Prop} {tr ev ev' : List Event} {ℓ : Nat}

/-- A local that is assigned last is assigned. -/
theorem assigned_concat (tr : List Event) (ℓ : Nat) : Assigned (tr ++ [Event.assigns ℓ]) ℓ :=
  ⟨tr, [], rfl, List.not_mem_nil⟩

/-- A local stays assigned until it is declared again. -/
theorem Assigned.append (h : Assigned tr ℓ) (hev : .declares ℓ ∉ ev) : Assigned (tr ++ ev) ℓ := by
  obtain ⟨before, since, rfl, hsince⟩ := h
  refine ⟨before, since ++ ev, by rw [List.append_assoc, List.cons_append], ?_⟩
  rw [List.mem_append, not_or]
  exact ⟨hsince, hev⟩

/-- Where nothing is read, all reads are safe. -/
theorem safe_of_not_reads (h : ∀ ℓ, Event.reads ℓ ∉ ev) : Safe free tr ev := by
  intro pre ℓ post heq
  apply absurd _ (h ℓ)
  rw [heq]
  exact List.mem_append_right pre List.mem_cons_self

theorem safe_nil : Safe free tr [] := safe_of_not_reads fun _ => List.not_mem_nil

/-- A read is safe if the local is assigned before, or free. -/
theorem safe_reads (h : Assigned tr ℓ ∨ free ℓ) : Safe free tr [.reads ℓ] := by
  intro pre ℓ' post heq
  cases pre with
  | nil =>
      cases heq
      rwa [List.append_nil]
  | cons e pre => simp at heq

/-- Reads are safe one after the other. -/
theorem Safe.append (h : Safe free tr ev) (h' : Safe free (tr ++ ev) ev') :
    Safe free tr (ev ++ ev') := by
  intro pre ℓ post heq
  rcases List.append_eq_append_iff.mp heq with ⟨mid, rfl, hmid⟩ | ⟨mid, rfl, hmid⟩
  · rw [← List.append_assoc]
    exact h' mid ℓ post hmid
  · cases mid with
    | nil =>
        have hhere := h' [] ℓ post hmid.symm
        rwa [List.append_nil, List.append_nil] at hhere
    | cons e mid =>
        obtain ⟨rfl, -⟩ := List.cons.inj hmid
        exact h pre ℓ mid rfl

end Traces

/-- A name resolves to nothing just if no frame has it. -/
theorem resolve?_eq_none_iff {fs : Frames} {name : String} :
    resolve? fs name = none ↔ ∀ ns ∈ names fs, name ∉ ns := by
  rw [resolve?, List.findSome?_eq_none_iff, names, List.forall_mem_map]
  apply forall₂_congr
  intro f _
  exact lookup_eq_none

end Execution

namespace Check

open Execution

/-- The names that a check takes for assigned stand for assigned locals, or for free ones. -/
def Tracks (free : Nat → Prop) (fs : Frames) (s : State) (tr : List Event) : Prop :=
  ∀ x ℓ, resolve? fs x = some ℓ → x ∈ s.flow.assigned → Assigned tr ℓ ∨ free ℓ

section Tracks

variable {free : Nat → Prop} {fs : Frames} {s s' s'' : State} {tr ev ev' : List Event}

/-- What takes less for assigned still tracks. -/
theorem Tracks.of_subset (h : Tracks free fs s tr)
    (hassigned : ∀ x ∈ s'.flow.assigned, x ∈ s.flow.assigned) : Tracks free fs s' tr :=
  fun x ℓ hx hassigned' => h x ℓ hx (hassigned x hassigned')

/-- Nothing gets lost while no local in scope is declared again. -/
theorem Tracks.append (h : Tracks free fs s tr)
    (hev : ∀ x ℓ, resolve? fs x = some ℓ → .declares ℓ ∉ ev) : Tracks free fs s (tr ++ ev) :=
  fun x ℓ hx hassigned => (h x ℓ hx hassigned).imp_left fun hℓ => hℓ.append (hev x ℓ hx)

/-- A check from one state to another follows an evaluation with some events. -/
structure Follows (free : Nat → Prop) (fs : Frames) (s s' : State) (ev : List Event) : Prop where
  keeps : Keeps s s'
  plain : ∀ ℓ, Event.declares ℓ ∉ ev
  sound : s.names = names fs → s.flow.reachable = true → s'.Clean → ∀ tr, Tracks free fs s tr →
    Safe free tr ev ∧ Tracks free fs s' (tr ++ ev)

namespace Follows

variable {env : Env} {name : String} {site : Span}

/-- What is quiet follows where nothing happens. -/
theorem of_quiet (h : Quiet s s') : Follows free fs s s' [] where
  keeps := h.keeps
  plain _ := List.not_mem_nil
  sound _ _ _ tr htracks := by
    rw [List.append_nil]
    refine ⟨safe_nil, htracks.of_subset ?_⟩
    intro x hx
    rwa [h.flow] at hx

/-- What follows two stretches follows them one after the other. -/
theorem trans (h : Follows free fs s s' ev) (h' : Follows free fs s' s'' ev') :
    Follows free fs s s'' (ev ++ ev') where
  keeps := h.keeps.trans h'.keeps
  plain ℓ := by
    rw [List.mem_append, not_or]
    exact ⟨h.plain ℓ, h'.plain ℓ⟩
  sound hnames hreachable hclean tr htracks := by
    obtain ⟨hsafe, hmid⟩ :=
      h.sound hnames hreachable (h'.keeps.findings.clean hclean) tr htracks
    obtain ⟨hsafe', hlast⟩ := h'.sound (h.keeps.names.trans hnames)
      (h.keeps.reachable.trans hreachable) hclean (tr ++ ev) hmid
    rw [← List.append_assoc]
    exact ⟨hsafe.append hsafe', hlast⟩

/-- What is quiet may come behind. -/
theorem quiet (h : Follows free fs s s' ev) (h' : Quiet s' s'') : Follows free fs s s'' ev := by
  have hboth := h.trans (of_quiet h')
  rwa [List.append_nil] at hboth

/-- A name of no local is not touched. -/
theorem touch_eq_nil (event : Nat → Event) (hnames : s.names = names fs) (h : ¬s.HasLocal name) :
    touch event fs name = [] := by
  have hnone : resolve? fs name = none := by
    rw [resolve?_eq_none_iff, ← hnames]
    exact fun ns hns hname => h ⟨ns, hns, hname⟩
  rw [touch, hnone]
  rfl

/-- A name of a local is touched there. -/
theorem touch_eq_singleton (event : Nat → Event) (hnames : s.names = names fs)
    (h : s.HasLocal name) : ∃ ℓ, resolve? fs name = some ℓ ∧ touch event fs name = [event ℓ] := by
  cases hresolve : resolve? fs name with
  | none =>
      obtain ⟨ns, hns, hname⟩ := h
      rw [resolve?_eq_none_iff, ← hnames] at hresolve
      exact absurd hname (hresolve ns hns)
  | some ℓ =>
      refine ⟨ℓ, rfl, ?_⟩
      rw [touch, hresolve]
      rfl

/-- Touching a name declares nothing. -/
theorem plain_touch (event : Nat → Event) (hevent : ∀ ℓ ℓ', event ℓ ≠ .declares ℓ') (ℓ : Nat) :
    .declares ℓ ∉ touch event fs name := by
  rw [touch]
  cases resolve? fs name with
  | none => exact List.not_mem_nil
  | some ℓ' => exact fun h => hevent ℓ' ℓ (List.mem_singleton.mp h).symm

/-- **Reading a name** follows the read of its local. -/
theorem read (env : Env) (s : State) (name : String) (site : Span) :
    Follows free fs s (s.read env name site).2 (touch .reads fs name) where
  keeps := (Quiet.read env s name site).keeps
  plain := plain_touch _ (by simp)
  sound hnames hreachable hclean tr htracks := by
    have hafter : Tracks free fs (s.read env name site).2 tr := by
      apply htracks.of_subset
      intro x hx
      rwa [(Quiet.read env s name site).flow] at hx
    refine ⟨?_, hafter.append fun _ ℓ _ => plain_touch _ (by simp) ℓ⟩
    by_cases hlocal : s.HasLocal name
    · obtain ⟨ℓ, hresolve, htouch⟩ := touch_eq_singleton .reads hnames hlocal
      rw [htouch]
      apply safe_reads
      apply htracks name ℓ hresolve
      rw [State.read] at hclean
      split at hclean
      · dsimp only at hclean
        rw [State.reportIf, hreachable, Bool.true_and] at hclean
        split at hclean
        · exact absurd hclean (State.not_clean_report rfl)
        · rename_i hassigned
          rwa [Bool.not_eq_true, Bool.not_eq_false', List.contains_iff_mem] at hassigned
      · rename_i hupdate
        obtain ⟨ns, hns, hname⟩ := hlocal
        exact absurd hname (Scope.update?_eq_none.mp hupdate ns hns)
    · rw [touch_eq_nil .reads hnames hlocal]
      exact safe_nil

/-- **Writing to a name** follows the write to its local. -/
theorem write (env : Env) (s : State) (name : String) (site : Span) :
    Follows free fs s (s.write env name site).2 (touch .assigns fs name) where
  keeps := .write env s name site
  plain := plain_touch _ (by simp)
  sound hnames hreachable hclean tr htracks := by
    have hsafe : Safe free tr (touch .assigns fs name) := by
      apply safe_of_not_reads
      intro ℓ hmem
      rw [touch, Option.mem_toList, Option.map_eq_some_iff] at hmem
      obtain ⟨_, -, h⟩ := hmem
      cases h
    refine ⟨hsafe, ?_⟩
    by_cases hlocal : s.HasLocal name
    · obtain ⟨ℓ, hresolve, htouch⟩ := touch_eq_singleton .assigns hnames hlocal
      rw [htouch]
      intro x ℓ' hx hassigned
      by_cases hname : x = name
      · rw [hname, hresolve] at hx
        obtain rfl := Option.some.inj hx
        exact .inl (assigned_concat tr ℓ)
      · refine (htracks x ℓ' hx ?_).imp_left fun h => h.append (by simp)
        rw [State.write] at hassigned
        split at hassigned
        · exact (Flow.mem_assigned_assign.mp hassigned).resolve_left hname
        · rwa [(Quiet.nonLocal env s name site).flow] at hassigned
    · have hwrite : s.write env name site = s.nonLocal env name site := by
        rw [State.write]
        split
        · rename_i hupdate
          exact absurd (hasLocal_of_update? hupdate) hlocal
        · rfl
      rw [hwrite] at hclean ⊢
      rw [touch_eq_nil .assigns hnames hlocal]
      have hquiet : Follows free fs s (s.nonLocal env name site).2 [] :=
        of_quiet (.nonLocal env s name site)
      exact (hquiet.sound hnames hreachable hclean tr htracks).2

/-- The right operand of a short circuit may be skipped. -/
theorem skip (h : Follows free fs s s' ev) (h' : Keeps s' s'') :
    Follows free fs s { s'' with flow := s'.flow } ev where
  keeps := h.keeps.trans h'.shortcut
  plain := h.plain
  sound hnames hreachable hclean tr htracks :=
    h.sound hnames hreachable (h'.findings.clean hclean) tr htracks

/-- If it is evaluated, its assignments do not count. -/
theorem shortcut (h : Follows free fs s s' ev) (h' : Follows free fs s' s'' ev') :
    Follows free fs s { s'' with flow := s'.flow } (ev ++ ev') where
  keeps := h.keeps.trans h'.keeps.shortcut
  plain := (h.trans h').plain
  sound hnames hreachable hclean tr htracks := by
    have hmid := ((h.skip h'.keeps).sound hnames hreachable hclean tr htracks).2
    rw [← List.append_assoc]
    exact ⟨((h.trans h').sound hnames hreachable hclean tr htracks).1,
      hmid.append fun _ ℓ _ => h'.plain ℓ⟩

end Follows

end Tracks

/-! ## Expressions -/

section Equations

variable {env : Env} {s : State} {d : Node} {cs : List Tree} {l r operand target value : Tree}

/-- An identifier is checked by reading its name. -/
theorem expression_identifier {name : String} (hkind : d.kind = .identifier name) :
    expression env s (.node d cs) = s.read env name d.span := by
  cases d
  cases hkind
  rfl

/-- Parentheses are checked by what is in them. -/
theorem expression_parenthesized {inner : Tree} (hkind : d.kind = .parenthesized) :
    expression env s (.node d (inner :: cs)) = expression env s inner := by
  cases d
  cases hkind
  rfl

/-- A binary expression is checked by its operands, from left to right. -/
theorem expression_binary {op : BinaryOp} (hkind : d.kind = .binary op) :
    expression env s (.node d [l, r]) =
      let left := expression env s l
      let right := expression env left.2 r
      binaryOperation
        (if op == .and || op == .or then { right.2 with flow := left.2.flow } else right.2)
        op left.1 right.1 d.span r := by
  cases d
  cases hkind
  rfl

/-- A call is checked by its arguments, from left to right. -/
theorem expression_invocation {callee : String} (hkind : d.kind = .invocation callee) :
    expression env s (.node d cs) =
      call env (expressions env s cs).2 callee d.span (expressions env s cs).1 := by
  cases d
  cases hkind
  rfl

section Unary

variable {op : UnaryOp} {name : String}

/-- A step of a variable. -/
theorem expression_step (hkind : d.kind = .prefixUnary op ∨ d.kind = .postfixUnary op)
    (hop : op.isStep = true) (hname : Variables.nameOf? operand = some name) :
    expression env s (.node d [operand]) =
      stepVariable env s op name (unparenthesize operand).span operand.span := by
  rw [nameOf?_eq_some_iff] at hname
  have hplain : (op == .negate) = false := by
    cases op with
    | negate => cases hop
    | _ => rfl
  rw [expression.eq_def]
  rcases hkind with hkind | hkind
  · simp only [hkind, hname, hop, hplain, Bool.false_and, Bool.false_eq_true, ↓reduceIte]
  · simp only [hkind, hname, hop, hplain, Bool.false_and, Bool.false_eq_true, ↓reduceIte]

/-- Any other unary expression. -/
theorem expression_unary (hkind : d.kind = .prefixUnary op ∨ d.kind = .postfixUnary op)
    (hop : op.isStep = false ∨ Variables.nameOf? operand = none) :
    expression env s (.node d [operand]) =
      if op == .negate && isMinimumMagnitude operand then (.int, s)
      else if op.isStep then
        (.unknown, (expression env s operand).2.report .steppedValue operand.span)
      else
        unaryOperation (expression env s operand).2 op (expression env s operand).1
          operand.span := by
  have hplace : op.isStep = true → ∀ name, (unparenthesize operand).kind ≠ .identifier name := by
    intro hstep name hname
    rw [← nameOf?_eq_some_iff] at hname
    rcases hop with hop | hop
    · rw [hop] at hstep
      cases hstep
    · rw [hop] at hname
      cases hname
  rw [expression.eq_def]
  rcases hkind with hkind | hkind
  all_goals
    simp only [hkind]
    split
    · rfl
    · split
      · split
        · exact absurd ‹_› (hplace ‹_› _)
        · rfl
      · rfl

end Unary

section Assignment

variable {op : AssignOp} {name : String}

/-- A variable is assigned. -/
theorem expression_simple (hkind : d.kind = .assignment op) (hop : op.binaryOp? = none)
    (hname : Variables.nameOf? target = some name) :
    expression env s (.node d [target, value]) =
      let given := expression env s value
      let wanted := given.2.write env name (unparenthesize target).span
      (wanted.1, wanted.2.convert given.1 wanted.1 value.span) := by
  rw [nameOf?_eq_some_iff] at hname
  rw [expression.eq_def]
  simp only [hkind, hname, hop]

/-- A variable is assigned what an operator makes of its value and another. -/
theorem expression_compound {arithmetic : BinaryOp} (hkind : d.kind = .assignment op)
    (hop : op.binaryOp? = some arithmetic) (hname : Variables.nameOf? target = some name) :
    expression env s (.node d [target, value]) =
      let current := s.read env name (unparenthesize target).span
      let given := expression env current.2 value
      let wanted := given.2.write env name (unparenthesize target).span
      let result := binaryOperation wanted.2 arithmetic current.1 given.1 target.span value
      if arithmetic == .add && wanted.1 == .string then (wanted.1, result.2)
      else (wanted.1, result.2.convert result.1 wanted.1 value.span) := by
  rw [nameOf?_eq_some_iff] at hname
  rw [expression.eq_def]
  simp only [hkind, hname, hop]

/-- What is no variable cannot be assigned. -/
theorem expression_elsewhere (hkind : d.kind = .assignment op)
    (hname : Variables.nameOf? target = none) :
    expression env s (.node d [target, value]) =
      (.unknown, (expression env (expression env s target).2 value).2.report .assignedValue
        target.span) := by
  rw [expression.eq_def]
  simp only [hkind]
  split
  · rename_i name hplace
    rw [nameOf?_eq_some_iff.mpr hplace] at hname
    cases hname
  · rfl

end Assignment

/-- Literals are quiet. -/
theorem quiet_literal {v : Literal} (hkind : d.kind = .literal v) :
    Quiet s (expression env s (.node d cs)).2 := by
  rw [expression.eq_def]
  simp only [hkind]
  split
  · exact .integerLiteral s _ _
  · exact .refl s
  · exact .refl s
  · exact .refl s

end Equations

section Expressions

variable {free : Nat → Prop} {fs : Frames} {env : Env} {ev : List Event}

/-- Expressions one after another follow their evaluation. -/
theorem follows_expressions {ts : List Tree}
    (ih : ∀ t ∈ ts, ∀ s ev, Evaluates fs t ev → Follows free fs s (expression env s t).2 ev)
    (s : State) (h : EvaluatesAll fs ts ev) : Follows free fs s (expressions env s ts).2 ev := by
  induction ts generalizing s ev with
  | nil =>
      cases h
      rw [expressions]
      exact .of_quiet (.refl s)
  | cons t ts ihs =>
      rw [List.forall_mem_cons] at ih
      cases h with
      | cons here rest =>
          rw [expressions]
          exact (ih.1 s _ here).trans (ihs ih.2 _ rest)

/-- A literal has no events. -/
theorem eq_nil_of_literal {t : Tree} (h : Evaluates fs t ev) {v : Literal}
    (hkind : t.kind = .literal v) : ev = [] := by
  cases h <;> simp_all [Tree.kind, Tree.root]

section Operations

variable {s : State} {d : Node} {op : UnaryOp} {assignOp : AssignOp} {operand target value : Tree}
  {name : String} {ev' : List Event}

/-- A step up or down follows the read and the write of its variable. -/
theorem follows_step (hkind : d.kind = .prefixUnary op ∨ d.kind = .postfixUnary op)
    (hop : op.isStep = true) (hname : Variables.nameOf? operand = some name) :
    Follows free fs s (expression env s (.node d [operand])).2
      (touch .reads fs name ++ touch .assigns fs name) := by
  have hread : Follows free fs s (s.read env name (unparenthesize operand).span).2
      (touch .reads fs name) := .read env s name _
  have hboth := hread.trans (.write env _ name (unparenthesize operand).span)
  rw [expression_step hkind hop hname, stepVariable]
  dsimp only
  split
  · exact hboth.quiet (.report _ _ (Finding.code_ne rfl))
  · exact hboth

/-- A unary expression that is no step follows the evaluation of its operand. -/
theorem follows_unary (hkind : d.kind = .prefixUnary op ∨ d.kind = .postfixUnary op)
    (hop : op.isStep = false ∨ Variables.nameOf? operand = none) (hevents : Evaluates fs operand ev)
    (h : Follows free fs s (expression env s operand).2 ev) :
    Follows free fs s (expression env s (.node d [operand])).2 ev := by
  rw [expression_unary hkind hop]
  split
  · rename_i hmin
    rw [Bool.and_eq_true, isMinimumMagnitude] at hmin
    have hliteral : ∃ v, operand.kind = .literal v := by
      obtain ⟨-, hmin⟩ := hmin
      split at hmin
      · exact ⟨_, ‹_›⟩
      · cases hmin
    obtain ⟨v, hv⟩ := hliteral
    rw [eq_nil_of_literal hevents hv]
    exact .of_quiet (.refl s)
  · split
    · exact h.quiet (.report _ _ (by decide))
    · exact h.quiet (.unaryOperation _ op _ _)

/-- A plain assignment follows the evaluation of its value, then the write. -/
theorem follows_simple (hkind : d.kind = .assignment assignOp) (hop : assignOp.binaryOp? = none)
    (hname : Variables.nameOf? target = some name)
    (h : Follows free fs s (expression env s value).2 ev) :
    Follows free fs s (expression env s (.node d [target, value])).2
      (ev ++ touch .assigns fs name) := by
  rw [expression_simple hkind hop hname]
  exact (h.trans (.write env _ name _)).quiet (.convert _ _ _ _)

/-- A compound assignment follows the read of its target, then the value, then the write. -/
theorem follows_compound {arithmetic : BinaryOp} (hkind : d.kind = .assignment assignOp)
    (hop : assignOp.binaryOp? = some arithmetic) (hname : Variables.nameOf? target = some name)
    (h : ∀ s, Follows free fs s (expression env s value).2 ev) :
    Follows free fs s (expression env s (.node d [target, value])).2
      (touch .reads fs name ++ (ev ++ touch .assigns fs name)) := by
  have hwritten := (Follows.read env s name (unparenthesize target).span).trans
    ((h _).trans (.write env _ name (unparenthesize target).span))
  rw [expression_compound hkind hop hname]
  dsimp only
  split
  · exact hwritten.quiet (.binaryOperation _ arithmetic _ _ _ value)
  · exact (hwritten.quiet (.binaryOperation _ arithmetic _ _ _ value)).quiet (.convert _ _ _ _)

/-- An assignment to what is no variable follows the evaluation of both sides. -/
theorem follows_elsewhere (hkind : d.kind = .assignment assignOp)
    (hname : Variables.nameOf? target = none)
    (h : Follows free fs s (expression env s target).2 ev)
    (h' : Follows free fs (expression env s target).2
      (expression env (expression env s target).2 value).2 ev') :
    Follows free fs s (expression env s (.node d [target, value])).2 (ev ++ ev') := by
  rw [expression_elsewhere hkind hname]
  exact (h.trans h').quiet (.report _ _ (by decide))

end Operations

/-- **Checking an expression follows its evaluation.** -/
theorem follows_expression (env : Env) (s : State) {t : Tree} (h : Evaluates fs t ev) :
    Follows free fs s (expression env s t).2 ev := by
  induction t using Tree.inductionOn generalizing s ev with
  | node d cs ih =>
      cases h with
      | literal hkind => exact .of_quiet (quiet_literal hkind)
      | @identifier _ _ name hkind =>
          rw [expression_identifier hkind]
          exact .read env s name d.span
      | parenthesized hkind value =>
          rw [expression_parenthesized hkind]
          exact ih _ List.mem_cons_self s value
      | @binary _ op l r _ _ hkind left right =>
          have hleft := ih l List.mem_cons_self s left
          have hright := ih r (by simp) (expression env s l).2 right
          rw [expression_binary hkind]
          refine Follows.quiet ?_ (.binaryOperation _ op _ _ _ r)
          split
          · exact hleft.shortcut hright
          · exact hleft.trans hright
      | @shortcut _ op l r _ hkind hop left =>
          have hleft := ih l List.mem_cons_self s left
          have hshort : (op == .and || op == .or) = true := by
            rcases hop with rfl | rfl
            · rfl
            · rfl
          rw [expression_binary hkind]
          refine Follows.quiet ?_ (.binaryOperation _ op _ _ _ r)
          rw [if_pos hshort]
          exact hleft.skip (keeps_expression env _ r)
      | step hkind hop hname => exact follows_step hkind hop hname
      | unary hkind hop value =>
          exact follows_unary hkind hop value (ih _ List.mem_cons_self s value)
      | simple hkind hop hname value =>
          exact follows_simple hkind hop hname (ih _ (by simp) s value)
      | compound hkind hop hname value =>
          exact follows_compound hkind hop hname fun s => ih _ (by simp) s value
      | elsewhere hkind hname place value =>
          exact follows_elsewhere hkind hname (ih _ List.mem_cons_self s place)
            (ih _ (by simp) _ value)
      | @invocation _ callee args _ hkind values =>
          rw [expression_invocation hkind]
          exact (follows_expressions (fun t ht s _ h => ih t ht s h) s values).quiet
            (.call env _ callee _ _)

end Expressions

end Check
end SharpMutants
