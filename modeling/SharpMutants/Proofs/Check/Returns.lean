import SharpMutants.Proofs.Check.Statements
import SharpMutants.Proofs.Rendering.Extents

/-!
# Methods that may end without a return

Behind a statement the flow of the check is reachable just if it is in front of it and a
run of the statement ends there (`reachable_statement`): by induction on the statement,
since every expression can be evaluated and a loop can be left by its condition unless
that is the literal `true`.

Nothing but a method reports a missing return, and methods differ in their extents, so a
method gets that report just if a run of its body ends behind it: `check_missingReturn`.
-/

namespace SharpMutants

/-! ## Members -/

/-- Only classes have members for parts. -/
theorem Rule.ne_member {s : Symbol} {k : Kind} {ss : List Symbol} (rule : Rule s k ss)
    (hkind : ∀ name ms, k ≠ .classDecl name ms) : ∀ s' ∈ ss, s' ≠ .member := by
  cases rule with
  | classDecl inNamespace name ms members => exact absurd rfl (hkind name ms)
  | _ => simp +contextual [List.mem_replicate, or_imp]

/-- Only members are methods. -/
theorem Conforms.isMethod_of_ne_member {s : Symbol} {t : Tree} (h : Conforms s t)
    (hs : s ≠ .member) : t.kind.isMethod = false := by
  obtain @⟨_, d, ss, cs, rule, -, -⟩ := h
  rw [Tree.kind, Tree.root]
  generalize d.kind = k at rule
  cases rule with
  | methodDecl => exact absurd rfl hs
  | _ => rfl

/-- Only classes have methods among their children. -/
theorem Conforms.classes_have_members {s : Symbol} {t : Tree} (h : Conforms s t) :
    (∃ name ms, t.kind = .classDecl name ms ∧ ∀ c ∈ t.children, Conforms .member c) ∨
      ((∀ name ms, t.kind ≠ .classDecl name ms) ∧
        ∀ c ∈ t.children, c.kind.isMethod = false) := by
  obtain @⟨_, d, ss, cs, rule, -, children⟩ := h
  rw [Tree.kind, Tree.root, Tree.children]
  generalize d.kind = k at rule
  by_cases hclass : ∃ name ms, k = .classDecl name ms
  · obtain ⟨name, ms, rfl⟩ := hclass
    cases rule with
    | classDecl => exact .inl ⟨name, ms, rfl, forall_mem_of_replicate children⟩
  · have hkind : ∀ name ms, k ≠ .classDecl name ms := fun name ms hk => hclass ⟨name, ms, hk⟩
    refine .inr ⟨hkind, ?_⟩
    intro c hc
    obtain ⟨s', hs', hchild⟩ := exists_symbol_of_mem children hc
    exact hchild.isMethod_of_ne_member (rule.ne_member hkind s' hs')

/-- A tree is one of its subtrees. -/
theorem Tree.mem_subtrees_self (t : Tree) : t ∈ t.subtrees := by
  cases t with
  | node d cs =>
      rw [subtrees_node]
      exact List.mem_cons_self

/-- The children of a node are where it is. -/
theorem Tree.mem_subtrees_of_child {t u c : Tree} (hu : u ∈ t.subtrees) (hc : c ∈ u.children) :
    c ∈ t.subtrees := by
  induction t using Tree.inductionOn with
  | node d cs ih =>
      rw [subtrees_node, List.mem_cons] at hu ⊢
      refine .inr (mem_subtreesOf.mpr ?_)
      rcases hu with rfl | hu
      · exact ⟨c, hc, mem_subtrees_self c⟩
      · obtain ⟨b, hb, hu⟩ := mem_subtreesOf.mp hu
        exact ⟨b, hb, ih b hb hu⟩

/-- Every node but the root is the child of another. -/
theorem Tree.eq_or_child_of_mem {t u : Tree} (hu : u ∈ t.subtrees) :
    u = t ∨ ∃ v ∈ t.subtrees, u ∈ v.children := by
  induction t using Tree.inductionOn with
  | node d cs ih =>
      rw [subtrees_node] at hu ⊢
      rw [List.mem_cons] at hu
      apply hu.imp_right
      intro hu
      obtain ⟨c, hc, hu⟩ := mem_subtreesOf.mp hu
      rcases ih c hc hu with rfl | ⟨v, hv, hu⟩
      · exact ⟨node d cs, List.mem_cons_self, hc⟩
      · exact ⟨v, List.mem_cons_of_mem _ (mem_subtreesOf.mpr ⟨c, hc, hv⟩), hu⟩

namespace Check

open Execution

/-! ## Conditions and places -/

/-- Parentheses around a tree are taken off. -/
theorem unparenthesize_parenthesized {d : Node} {t : Tree} {cs : List Tree}
    (hkind : d.kind = .parenthesized) :
    unparenthesize (.node d (t :: cs)) = unparenthesize t := by
  rw [unparenthesize.eq_def]
  simp only [hkind]

/-- What stands in no parentheses stays as it is. -/
theorem unparenthesize_other {d : Node} {cs : List Tree}
    (h : ∀ t ts, d.kind = .parenthesized → cs ≠ t :: ts) :
    unparenthesize (.node d cs) = .node d cs := by
  rw [unparenthesize.eq_def]
  dsimp only
  split
  · exact absurd rfl (h _ _ ‹_›)
  · rfl

/-- The conditions that are taken to hold are those that always do. -/
theorem isTrueLiteral_iff {t : Tree} : isTrueLiteral t = true ↔ AlwaysTrue t := by
  induction t using Tree.inductionOn with
  | node d cs ih =>
      by_cases h : ∃ t ts, d.kind = .parenthesized ∧ cs = t :: ts
      · obtain ⟨t, ts, hkind, rfl⟩ := h
        rw [isTrueLiteral, unparenthesize_parenthesized hkind, ← isTrueLiteral,
          ih t List.mem_cons_self]
        constructor
        · exact .parenthesized hkind
        · intro h
          cases h with
          | literal hliteral =>
              rw [hkind] at hliteral
              cases hliteral
          | parenthesized _ inner => exact inner
      · have hself : unparenthesize (.node d cs) = .node d cs :=
          unparenthesize_other fun t ts hkind hcs => h ⟨t, ts, hkind, hcs⟩
        rw [isTrueLiteral, hself]
        constructor
        · intro htrue
          split at htrue
          · rename_i value hvalue
            obtain ⟨kind, text⟩ := value
            rw [Bool.and_eq_true, beq_iff_eq, beq_iff_eq] at htrue
            obtain ⟨rfl, rfl⟩ := htrue
            exact .literal hvalue
          · cases htrue
        · intro htrue
          cases htrue with
          | literal hkind =>
              have hroot : (Tree.node d cs).kind = .literal ⟨.bool, "true"⟩ := hkind
              rw [hroot]
              rfl
          | parenthesized hkind _ => exact absurd ⟨_, _, hkind, rfl⟩ h

/-- The check and a run take the same expressions for variables. -/
theorem nameOf?_eq_some_iff {t : Tree} {name : String} :
    Variables.nameOf? t = some name ↔ (unparenthesize t).kind = .identifier name := by
  induction t using Tree.inductionOn with
  | node d cs ih =>
      by_cases h : ∃ t ts, d.kind = .parenthesized ∧ cs = t :: ts
      · obtain ⟨t, ts, hkind, rfl⟩ := h
        rw [unparenthesize_parenthesized hkind, ← ih t List.mem_cons_self,
          Variables.nameOf?.eq_def]
        simp only [hkind]
      · rw [unparenthesize_other fun t ts hkind hcs => h ⟨t, ts, hkind, hcs⟩,
          Variables.nameOf?.eq_def, Tree.kind, Tree.root]
        dsimp only
        split
        · exact absurd ⟨_, _, ‹_›, rfl⟩ h
        · simp_all
        · simp_all

/-! ## Some way through -/

/-- An expression can be evaluated. -/
def Evaluable (fs : Frames) : Symbol → Tree → Prop
  | .expression _, t => ∃ ev, Evaluates fs t ev
  | _, _ => True

/-- Expressions that can be evaluated can be evaluated one after another. -/
theorem exists_evaluatesAll {fs : Frames} {n : Nat} {ts : List Tree}
    (h : List.Forall₂ (Evaluable fs) (.replicate n (.expression 0)) ts) :
    ∃ ev, EvaluatesAll fs ts ev := by
  induction n generalizing ts with
  | zero =>
      rw [List.replicate_zero, List.forall₂_nil_left_iff] at h
      exact ⟨[], h ▸ .nil⟩
  | succ n ih =>
      rw [List.replicate_succ] at h
      cases h with
      | cons here rest =>
          obtain ⟨ev, value⟩ := here
          obtain ⟨ev', values⟩ := ih rest
          exact ⟨ev ++ ev', .cons value values⟩

/-- A unary expression can be evaluated if its operand can. -/
theorem exists_evaluates_unary {fs : Frames} {d : Node} {op : UnaryOp} {operand : Tree}
    (hkind : d.kind = .prefixUnary op ∨ d.kind = .postfixUnary op)
    (h : ∃ ev, Evaluates fs operand ev) : ∃ ev, Evaluates fs (.node d [operand]) ev := by
  obtain ⟨ev, value⟩ := h
  cases hop : op.isStep with
  | false => exact ⟨ev, .unary hkind (.inl hop) value⟩
  | true =>
      cases hname : Variables.nameOf? operand with
      | none => exact ⟨ev, .unary hkind (.inr hname) value⟩
      | some name => exact ⟨_, .step hkind hop hname⟩

/-- Every expression can be evaluated. -/
theorem evaluable {s : Symbol} {t : Tree} (h : Conforms s t) (fs : Frames) : Evaluable fs s t := by
  refine h.inductionOn (motive := Evaluable fs) ?_
  intro s d ss cs rule _ children
  generalize hkind : d.kind = k at rule
  cases rule with
  | assignment op =>
      match cs, children with
      | [target, _], .cons ⟨_, ev, place⟩ (.cons ⟨_, ev', value⟩ .nil) =>
        cases hname : Variables.nameOf? target with
        | none => exact ⟨_, .elsewhere hkind hname place value⟩
        | some name =>
            cases hop : op.binaryOp? with
            | none => exact ⟨_, .simple hkind hop hname value⟩
            | some arithmetic => exact ⟨_, .compound hkind hop hname value⟩
  | binary op _ =>
      match cs, children with
      | [_, _], .cons ⟨_, ev, left⟩ (.cons ⟨_, ev', right⟩ .nil) =>
        exact ⟨ev ++ ev', .binary hkind left right⟩
  | prefixUnary op _ =>
      match cs, children with
      | [_], .cons operand .nil => exact exists_evaluates_unary (.inl hkind) operand.2
  | postfixUnary _ _ =>
      match cs, children with
      | [_], .cons operand .nil => exact exists_evaluates_unary (.inr hkind) operand.2
  | identifier name _ => exact ⟨_, .identifier hkind⟩
  | literal value _ => exact ⟨[], .literal hkind⟩
  | parenthesized _ =>
      match cs, children with
      | [_], .cons ⟨_, ev, value⟩ .nil => exact ⟨ev, .parenthesized hkind value⟩
  | invocation callee args _ =>
      obtain ⟨ev, values⟩ := exists_evaluatesAll (children.imp fun _ _ => And.right)
      exact ⟨ev, .invocation hkind values⟩
  | _ => exact trivial

/-- **Every expression can be evaluated.** -/
theorem exists_evaluates {level : Nat} {t : Tree} (h : Conforms (.expression level) t)
    (fs : Frames) : ∃ ev, Evaluates fs t ev :=
  evaluable h fs

/-- Every declaration of variables can be executed. -/
theorem exists_declares {ts : List Tree} (h : ∀ t ∈ ts, Conforms .variableDeclarator t)
    (fs : Frames) (n : Nat) : ∃ ev, Declares fs (Tree.numberFrom n ts) ev := by
  induction ts generalizing fs n with
  | nil => exact ⟨[], .nil⟩
  | cons t ts ih =>
      rw [List.forall_mem_cons] at h
      rw [Tree.numberFrom_cons]
      obtain ⟨d, name, hkind, hchildren⟩ := h.1.declarator
      obtain ⟨ev, hrest⟩ := ih h.2 (declare fs name n) (n + t.size)
      rcases hchildren with rfl | ⟨init, rfl, hinit⟩
      · exact ⟨_, .uninitialized hkind hrest⟩
      · obtain ⟨ev', value⟩ := exists_evaluates hinit fs
        exact ⟨_, .initialized hkind value hrest⟩

/-- Every declaration can be executed. -/
theorem exists_declaration {t : Tree} (h : Conforms .variableDeclaration t) (fs : Frames)
    (id : Nat) : ∃ ev, Declares fs (Execution.declarators id t) ev := by
  obtain ⟨type, hkind, hchildren⟩ := h.declaration
  rw [Execution.declarators, hkind]
  exact exists_declares hchildren fs (id + 1)

/-- Every initializer of a loop can be executed. -/
theorem exists_initializes {t : Tree}
    (h : Conforms .variableDeclaration t ∨ Conforms (.expression 0) t) (fs : Frames) (id : Nat) :
    ∃ ev, Initializes fs id t ev := by
  rcases h with h | h
  · obtain ⟨ev, body⟩ := exists_declaration h fs id
    obtain ⟨type, hkind, -⟩ := h.declaration
    exact ⟨ev, .declaration hkind body⟩
  · obtain ⟨ev, value⟩ := exists_evaluates h fs
    exact ⟨ev, .expression value⟩

/-- A loop can be left by its condition, unless that always holds. -/
theorem exists_loops_iff {fs : Frames} {cond : Tree} (h : ∃ ev, Evaluates fs cond ev) (id : Nat)
    (body : Tree) (steps : List Tree) :
    (∃ ev, Loops fs cond id body steps ev .ended) ↔ ¬AlwaysTrue cond := by
  constructor
  · intro hloops
    obtain ⟨ev, loop⟩ := hloops
    exact Loops.inductionOn (motive := fun _ o => o = .ended → ¬AlwaysTrue cond)
      (fun mayFail _ _ => mayFail) (fun _ _ left ho => absurd ho left)
      (fun _ _ _ ih => ih) loop rfl
  · intro hexit
    obtain ⟨ev, test⟩ := h
    exact ⟨ev, .exit hexit test⟩

/-! ## The flow -/

/-- Declarators do not change whether a place is reached. -/
theorem reachable_declarators (env : Env) (type : Ty) (s : State) (ts : List Tree) :
    (declarators env type s ts).flow.reachable = s.flow.reachable := by
  induction ts generalizing s with
  | nil => rfl
  | cons t ts ih =>
      rw [declarators]
      split
      · split
        · rename_i init _ _
          dsimp only
          rw [ih, Flow.reachable_assign, (State.declare_eq _ _ _ _ _ _).2]
          exact ((keeps_expression env s init).quiet (.convert _ _ type _)).reachable
        · dsimp only
          rw [ih, Flow.unassign, (State.declare_eq _ _ _ _ _ _).2]
      · exact ih s

/-- Declarations do not change whether a place is reached. -/
theorem reachable_declaration (env : Env) (s : State) (t : Tree) :
    (declaration env s t).flow.reachable = s.flow.reachable := by
  unfold declaration
  split
  · exact reachable_declarators env _ s t.children
  · rfl

/-- The initializer of a loop does not change whether a place is reached. -/
theorem reachable_loopInit (env : Env) (s : State) (t : Tree) :
    (loopInit env s t).flow.reachable = s.flow.reachable := by
  unfold loopInit
  split
  · exact reachable_declaration env s t
  · exact (keeps_expression env s t).reachable

/-- The place behind a return is not reached. -/
theorem reachable_returnStatement (env : Env) (s : State) (site : Span) (cs : List Tree) :
    (returnStatement env s site cs).flow.reachable = false := by
  unfold returnStatement
  split <;> rfl

/-- The place behind a loop is reached if its condition is, and can be false. -/
theorem reachable_loopExit {cond : Tree} {flow : Flow} :
    (loopExit cond flow).reachable = true ↔ flow.reachable = true ∧ ¬AlwaysTrue cond := by
  rw [loopExit, ← isTrueLiteral_iff]
  split
  · simp_all [Flow.cut]
  · simp_all

/-- The flow behind a statement is reachable if it is in front of it and a run ends there. -/
def Decided (t : Tree) : Prop :=
  ∀ env s fs id, (statement env s t).flow.reachable = true ↔
    s.flow.reachable = true ∧ ∃ ev, Runs fs id t ev .ended

/-- **The place behind a list of statements** is reached just if some run ends there. -/
theorem reachable_statements {ts : List Tree} (h : ∀ t ∈ ts, Decided t) (env : Env)
    (warned : Bool) (s : State) (fs : Frames) (id : Nat) :
    (statements env warned s ts).flow.reachable = true ↔
      s.flow.reachable = true ∧ ∃ ev, RunsAll fs id ts ev .ended := by
  induction ts generalizing warned s fs id with
  | nil =>
      rw [statements]
      exact ⟨fun h => ⟨h, [], .nil⟩, And.left⟩
  | cons t ts ih =>
      rw [List.forall_mem_cons] at h
      have hreport : ∀ test, (s.reportIf test .unreachableCode t.span).flow.reachable =
          s.flow.reachable := fun test =>
        (Quiet.reportIf s test t.span (by decide)).keeps.reachable
      rw [statements, ih h.2 _ _ (after fs id t) (id + t.size), h.1 env _ fs id, hreport,
        and_assoc]
      constructor
      · intro h
        obtain ⟨hreachable, ⟨ev, here⟩, ev', rest⟩ := h
        exact ⟨hreachable, ev ++ ev', .cons here rest⟩
      · intro h
        obtain ⟨hreachable, ev, hall⟩ := h
        refine ⟨hreachable, ?_⟩
        cases hall with
        | cons here rest => exact ⟨⟨_, here⟩, _, rest⟩
        | leave _ left => exact absurd rfl left

/-- **The flow knows which statements can be passed.** -/
theorem reachable_statement {t : Tree} (h : Statement t) : Decided t := by
  induction h with
  | @block d cs hkind _ ih =>
      intro env s fs id
      rw [statement_block hkind, (closeScope_eq _).2.2,
        reachable_statements ih env false _ ([] :: fs) (id + 1)]
      simp only [runs_block hkind, reduceCtorEq, and_false, false_or]
      rfl
  | @declaration d t hkind part =>
      intro env s fs id
      rw [statement_declaration hkind, reachable_declaration]
      obtain ⟨ev, body⟩ := exists_declaration part fs (id + 1)
      exact ⟨fun h => ⟨h, ev, .declaration hkind body⟩, And.left⟩
  | @expression d t hkind part =>
      intro env s fs id
      have hreport : Quiet s (s.reportIf (!isEffect t.kind) .idleExpression t.span) :=
        .reportIf s _ _ (by decide)
      rw [statement_expression hkind, expressionStatement, (keeps_expression env _ t).reachable,
        hreport.flow]
      obtain ⟨ev, value⟩ := exists_evaluates part fs
      exact ⟨fun h => ⟨h, ev, .expression hkind value⟩, And.left⟩
  | @empty d hkind =>
      intro env s fs id
      rw [statement_empty hkind]
      exact ⟨fun h => ⟨h, [], .empty hkind⟩, And.left⟩
  | @returnNothing d hkind =>
      intro env s fs id
      simp [statement_return hkind, reachable_returnStatement, runs_returnNothing hkind]
  | @returnValue d t hkind _ =>
      intro env s fs id
      simp [statement_return hkind, reachable_returnStatement, runs_returnValue hkind]
  | @ifThen d cond body hkind test _ ih =>
      intro env s fs id
      obtain ⟨ev, value⟩ := exists_evaluates test fs
      have hentered := (keeps_enter env s cond body).reachable
      rw [statement_ifThen hkind]
      dsimp only
      rw [Flow.reachable_join, ih env _ fs (id + 1 + cond.size), hentered]
      constructor
      · intro h
        exact ⟨h.elim And.left fun h => h, ev, .ifSkip hkind value⟩
      · intro h
        exact .inr h.1
  | @ifElse d e cond body other hkind _ test _ _ ih ihOther =>
      intro env s fs id
      have hentered := (keeps_enter env s cond body).reachable
      rw [statement_ifElse hkind]
      dsimp only
      rw [Flow.reachable_join, ih env _ fs (id + 1 + cond.size),
        ihOther env _ (after fs (id + 1 + cond.size) body)
          (id + 1 + cond.size + body.size + 1), hentered, ← and_or_left]
      apply and_congr_right
      intro _
      obtain ⟨ev, value⟩ := exists_evaluates test fs
      simp only [runs_ifElse hkind, reduceCtorEq, and_false, false_or]
      constructor
      · intro h
        rcases h with ⟨ev', branch⟩ | ⟨ev', branch⟩
        · exact ⟨_, ev, ev', rfl, value, .inl branch⟩
        · exact ⟨_, ev, ev', rfl, value, .inr branch⟩
      · intro ⟨_, _, ev', _, _, branch⟩
        exact branch.imp (⟨ev', ·⟩) (⟨ev', ·⟩)
  | @whileLoop d cond body hkind test _ _ =>
      intro env s fs id
      have hentered := (keeps_enter env s cond body).reachable
      rw [statement_while hkind]
      dsimp only
      rw [reachable_loopExit, hentered,
        ← exists_loops_iff (exists_evaluates test fs) (id + 1 + cond.size) body []]
      simp only [runs_while hkind, reduceCtorEq, and_false, false_or]
  | @forLoop d init cond step body hkind start test _ _ _ =>
      intro env s fs id
      have hentered := (keeps_enter env (loopInit env (s.openScope []) init) cond body).reachable
      obtain ⟨ev, started⟩ := exists_initializes start ([] :: fs) (id + 1)
      rw [statement_for hkind]
      dsimp only
      rw [reachable_loopExit, hentered, reachable_loopInit,
        ← exists_loops_iff (exists_evaluates test (afterInit ([] :: fs) (id + 1) init))
          (id + 1 + init.size + cond.size + step.size) body [step]]
      simp only [runs_for hkind, reduceCtorEq, and_false, false_or]
      apply and_congr_right
      intro _
      constructor
      · intro ⟨ev', loop⟩
        exact ⟨_, ev, ev', rfl, started, loop⟩
      · intro ⟨_, _, ev', _, _, loop⟩
        exact ⟨ev', loop⟩

/-! ## Methods -/

/-- A statement may be left at its end. -/
def Ends (t : Tree) : Prop := ∃ fs id ev, Runs fs id t ev .ended

/-- Where a statement stands does not matter to that. -/
theorem ends_iff {t : Tree} (h : Statement t) (fs : Frames) (id : Nat) :
    Ends t ↔ ∃ ev, Runs fs id t ev .ended := by
  have hflow : ∀ fs id, (statement ⟨[], [], [], .void, ""⟩ .initial t).flow.reachable = true ↔
      ∃ ev, Runs fs id t ev .ended := by
    intro fs id
    rw [reachable_statement h _ _ fs id]
    exact and_iff_right rfl
  constructor
  · intro hends
    obtain ⟨fs', id', hruns⟩ := hends
    exact (hflow fs id).mp ((hflow fs' id').mpr hruns)
  · intro hruns
    exact ⟨fs, id, hruns⟩

/-- A finding says that a method lacks a return, and rightly. -/
inductive Lacks : Tree → Finding × Span → Prop
  | method {t last : Tree} {name : String} {ms : List Modifier} {type : TypeName}
      (hkind : t.kind = .methodDecl name ms type) (value : type ≠ .void)
      (hlast : t.children.getLast? = some last) (ends : Ends last) :
      Lacks t (.missingReturn name, t.span)

section Methods

variable {s s' : State} {f : Finding × Span}

/-- What only adds other findings has the same missing returns. -/
theorem Adds.mem_iff (h : Adds s s') (hf : f.1.code = "CS0161") :
    f ∈ s'.findings ↔ f ∈ s.findings := by
  obtain ⟨new, heq, hnew⟩ := h
  rw [heq, List.mem_append]
  exact or_iff_right fun hmem => hnew f hmem hf

/-- Reading parameters is quiet. -/
theorem quiet_parameters (s : State) (known : List (String × Ty)) (ts : List Tree) :
    Quiet s (parameters s known ts).2 := by
  induction ts generalizing s known with
  | nil => exact .refl s
  | cons t ts ih =>
      rw [parameters]
      split
      · rename_i name type _
        have hreport : Quiet s
            (s.reportIf (typeIn? known name).isSome (.duplicateParameter name) t.span) :=
          .reportIf s _ _ (Finding.code_ne rfl)
        exact hreport.trans (ih _ _)
      · exact ih s known

/-- Reading the declarators of a field is quiet. -/
theorem quiet_fieldDeclarator (className : String) (type : Ty) (m : Members) (s : State)
    (t : Tree) : Quiet s (fieldDeclarator className type m s t).2 := by
  unfold fieldDeclarator
  split
  · exact .reportIf s _ _ (Finding.code_ne rfl)
  · exact .refl s

/-- Collecting a member is quiet. -/
theorem quiet_member (className : String) (m : Members) (s : State) (t : Tree) :
    Quiet s (member className m s t).2 := by
  unfold member
  split
  · split
    · exact .foldl Prod.snd (fun p d => quiet_fieldDeclarator className _ p.1 p.2 d) (m, s) _
    · exact .refl s
  · dsimp only
    split
    · exact .report s _ (Finding.code_ne rfl)
    · exact .refl s
  · exact .refl s

/-- The initializer of a field is checked as at the beginning of a body. -/
theorem keeps_initializer (m : Members) (s : State) (init : Tree) (type : Ty) :
    Keeps { s with flow := .entry } (initializer m s init type) := by
  unfold initializer
  exact (keeps_expression _ _ init).quiet (.convert _ _ type init.span)

/-- A body is checked like a statement. -/
theorem body_eq_statement (env : Env) (s : State) {t : Tree} (h : Conforms .body t) :
    body env s t = statement env s t := by
  cases h with
  | @node _ d ss cs rule _ _ =>
      generalize hkind : d.kind = k at rule
      cases rule with
      | body n => rw [statement_block hkind, body, Tree.children]

/-- A method lacks a return if it has a result and a run of its body ends at the end. -/
theorem lacks_iff {t last : Tree} {name : String} {ms : List Modifier} {type : TypeName}
    (hkind : t.kind = .methodDecl name ms type) (hlast : t.children.getLast? = some last) :
    Lacks t f ↔ (type ≠ .void ∧ Ends last) ∧ f = (.missingReturn name, t.span) := by
  constructor
  · intro h
    cases h with
    | method hkind' value hlast' ends =>
        rw [hkind] at hkind'
        cases hkind'
        obtain rfl := Option.some.inj (hlast.symm.trans hlast')
        exact ⟨⟨value, ends⟩, rfl⟩
  · intro ⟨⟨value, ends⟩, hf⟩
    rw [hf]
    exact .method hkind value hlast ends

/-- What stays fixed while a method is checked. -/
def envOf (m : Members) (s : State) (t : Tree) (name : String) (type : TypeName) : Env :=
  ⟨m.fields, m.methods, (parameters s [] t.children.dropLast).1, Ty.ofName type, name⟩

/-- A method is checked by its body, entered with its parameters. -/
theorem method_eq (m : Members) (s : State) {t last : Tree} {name : String} {ms : List Modifier}
    {type : TypeName} (hkind : t.kind = .methodDecl name ms type)
    (hgetLast : t.children.getLast? = some last) (hlast : Conforms .body last) :
    let entered : State := { (parameters s [] t.children.dropLast).2 with flow := .entry }
    let past := statement (envOf m s t name type) entered last
    method m s t = past.reportIf (past.flow.reachable && type != .void) (.missingReturn name)
      t.span := by
  unfold method
  rw [hkind, hgetLast]
  dsimp only
  rw [body_eq_statement _ _ hlast]
  rfl

/-- A method is checked by passing its body, with no flow known but that its beginning is in
reach. -/
theorem exists_entered (m : Members) (s : State) {t last : Tree} {name : String}
    {ms : List Modifier} {type : TypeName} (hkind : t.kind = .methodDecl name ms type)
    (hgetLast : t.children.getLast? = some last) (hlast : Conforms .body last) :
    ∃ entered, Adds s entered ∧ entered.names = s.names ∧ entered.flow = .entry ∧
      method m s t = (statement (envOf m s t name type) entered last).reportIf
        ((statement (envOf m s t name type) entered last).flow.reachable && type != .void)
        (.missingReturn name) t.span := by
  have hparameters := quiet_parameters s [] t.children.dropLast
  exact ⟨{ (parameters s [] t.children.dropLast).2 with flow := .entry },
    hparameters.findings.trans (.of_findings_eq rfl), hparameters.names, rfl,
    method_eq m s hkind hgetLast hlast⟩

/-- A method is reported if it returns a value and a run of its body ends behind it. -/
theorem mem_findings_method (m : Members) (s : State) {t : Tree} (h : Conforms .member t)
    (hf : f.1.code = "CS0161") :
    f ∈ (method m s t).findings ↔ f ∈ s.findings ∨ Lacks t f := by
  by_cases hmethod : ∃ name ms type, t.kind = .methodDecl name ms type
  · obtain ⟨name, ms, type, hkind⟩ := hmethod
    obtain ⟨ps, last, hchildren, hlast⟩ := h.exists_last (by rw [hkind]; rfl)
    have hgetLast : t.children.getLast? = some last := by
      rw [hchildren, List.getLast?_concat]
    obtain ⟨entered, hentered, -, hflow, heq⟩ := exists_entered m s hkind hgetLast hlast
    generalize envOf m s t name type = env at heq
    have hadds := hentered.trans (passes_statement hlast.body env entered 0).findings
    have hends : (statement env entered last).flow.reachable = true ↔ Ends last := by
      rw [reachable_statement hlast.body env entered [] 0, ends_iff hlast.body [] 0, hflow]
      exact and_iff_right rfl
    rw [heq, lacks_iff hkind hgetLast, ← hends, State.reportIf]
    generalize statement env entered last = past at hadds
    by_cases hlacks : (past.flow.reachable && type != .void) = true
    · rw [if_pos hlacks, State.report, List.mem_cons, hadds.mem_iff hf, or_comm]
      rw [Bool.and_eq_true, bne_iff_ne] at hlacks
      rw [and_iff_right ⟨hlacks.2, hlacks.1⟩]
    · rw [if_neg hlacks, hadds.mem_iff hf]
      rw [Bool.and_eq_true, bne_iff_ne] at hlacks
      exact (or_iff_left fun h => hlacks h.1.symm).symm
  · have hnone : ¬Lacks t f := by
      intro h
      cases h with
      | method hkind _ _ _ => exact hmethod ⟨_, _, _, hkind⟩
    rw [or_iff_left hnone]
    unfold method
    split
    · exact absurd ⟨_, _, _, ‹_›⟩ hmethod
    · rfl

/-- The missing returns of methods are found where they are lacking. -/
theorem mem_findings_methods (m : Members) {ts : List Tree} (h : ∀ t ∈ ts, Conforms .member t)
    (hf : f.1.code = "CS0161") (s : State) :
    f ∈ (ts.foldl (method m) s).findings ↔ f ∈ s.findings ∨ ∃ t ∈ ts, Lacks t f := by
  induction ts generalizing s with
  | nil => simp
  | cons t ts ih =>
      rw [List.forall_mem_cons] at h
      rw [List.foldl_cons, ih h.2, mem_findings_method m s h.1 hf, or_assoc]
      simp only [List.mem_cons, exists_eq_or_imp]

/-- What is no class is passed over. -/
theorem classDecl_other {t : Tree} (hkind : ∀ name ms, t.kind ≠ .classDecl name ms) (s : State) :
    classDecl s t = s := by
  unfold classDecl
  split
  · exact absurd ‹_› (hkind _ _)
  · rfl

/-- The members of a class, with what is found about them. -/
def collected (name : String) (s : State) (ts : List Tree) : Members × State :=
  ts.foldl (fun p c => member name p.1 p.2 c) (⟨[], [], []⟩, s)

/-- The initializers of a class are checked one after another. -/
def initialized (m : Members) (s : State) : State :=
  m.initializers.foldl (fun s e => initializer m s e.1 e.2) s

/-- A class is checked by its fields, then its methods. -/
theorem classDecl_eq {t : Tree} {name : String} {ms : List Modifier}
    (hkind : t.kind = .classDecl name ms) (s : State) :
    classDecl s t = t.children.foldl (method (collected name s t.children).1)
      (initialized (collected name s t.children).1 (collected name s t.children).2) := by
  unfold classDecl
  rw [hkind]
  rfl

/-- Collecting the members of a class is quiet. -/
theorem quiet_collected (name : String) (s : State) (ts : List Tree) :
    Quiet s (collected name s ts).2 :=
  Quiet.foldl Prod.snd (fun p c => quiet_member name p.1 p.2 c)
    ((⟨[], [], []⟩, s) : Members × State) ts

/-- An initializer of a field only adds findings. -/
theorem adds_initializer (m : Members) (s : State) (init : Tree) (type : Ty) :
    Adds s (initializer m s init type) ∧ (initializer m s init type).names = s.names := by
  have hentry : Adds s { s with flow := .entry } := .of_findings_eq rfl
  have hkeeps := keeps_initializer m s init type
  exact ⟨hentry.trans hkeeps.findings, hkeeps.names⟩

/-- The initializers of fields only add findings and declare nothing. -/
theorem adds_initialized (m : Members) (s : State) :
    Adds s (initialized m s) ∧ (initialized m s).names = s.names :=
  foldl_steps (R := fun s s' : State => Adds s s' ∧ s'.names = s.names)
    (fun s => ⟨.refl s, rfl⟩) (fun h h' => ⟨h.1.trans h'.1, h'.2.trans h.2⟩)
    (fun s e => adds_initializer m s e.1 e.2) s _

/-- Before the methods of a class are checked there are only findings about its fields. -/
theorem exists_members {t : Tree} {name : String} {ms : List Modifier}
    (hkind : t.kind = .classDecl name ms) (s : State) :
    ∃ m before, Adds s before ∧ before.names = s.names ∧
      classDecl s t = t.children.foldl (method m) before := by
  have hmembers := quiet_collected name s t.children
  obtain ⟨hadds, hnames⟩ :=
    adds_initialized (collected name s t.children).1 (collected name s t.children).2
  exact ⟨_, _, hmembers.findings.trans hadds, hnames.trans hmembers.names, classDecl_eq hkind s⟩

/-- In a class just the methods are reported. -/
theorem mem_findings_classDecl {sym : Symbol} {u : Tree} (h : Conforms sym u)
    (hf : f.1.code = "CS0161") (s : State) :
    f ∈ (classDecl s u).findings ↔ f ∈ s.findings ∨ ∃ c ∈ u.children, Lacks c f := by
  rcases h.classes_have_members with ⟨name, ms, hkind, hchildren⟩ | ⟨hkind, hchildren⟩
  · obtain ⟨m, before, hadds, -, heq⟩ := exists_members hkind s
    rw [heq, mem_findings_methods m hchildren hf, hadds.mem_iff hf]
  · have hnone : ¬∃ c ∈ u.children, Lacks c f := by
      intro ⟨c, hc, hlacks⟩
      cases hlacks with
      | method hkind' _ _ _ =>
          have hmethod := hchildren c hc
          rw [hkind'] at hmethod
          cases hmethod
    rw [or_iff_left hnone, classDecl_other hkind]

/-- **The missing returns of classes** are found where their methods lack them. -/
theorem mem_foldl_classDecl {us : List Tree} (h : ∀ u ∈ us, ∃ sym, Conforms sym u)
    (hf : f.1.code = "CS0161") (s : State) : f ∈ (us.foldl classDecl s).findings ↔
      f ∈ s.findings ∨ ∃ u ∈ us, ∃ c ∈ u.children, Lacks c f := by
  induction us generalizing s with
  | nil => simp
  | cons u us ih =>
      rw [List.forall_mem_cons] at h
      obtain ⟨sym, hconforms⟩ := h.1
      rw [List.foldl_cons, ih h.2, mem_findings_classDecl hconforms hf, or_assoc]
      simp only [List.mem_cons, exists_eq_or_imp]

/-- The missing returns that are found are those of the methods. -/
theorem mem_findings {t : Tree} (h : t.Grammatical) (hf : f.1.code = "CS0161") :
    f ∈ findings t ↔ ∃ u ∈ t.subtrees, Lacks u f := by
  rw [findings, List.mem_reverse,
    mem_foldl_classDecl (fun u hu => h.of_mem_subtrees hu) hf]
  constructor
  · intro hmem
    rcases hmem with hmem | ⟨u, hu, c, hc, hlacks⟩
    · cases hmem
    · exact ⟨c, Tree.mem_subtrees_of_child hu hc, hlacks⟩
  · intro ⟨u, hu, hlacks⟩
    refine .inr ?_
    rcases Tree.eq_or_child_of_mem hu with rfl | ⟨v, hv, hu⟩
    · cases hlacks with
      | method hkind _ _ _ =>
          have hroot := h.isMethod_of_ne_member (by decide)
          rw [hkind] at hroot
          cases hroot
    · exact ⟨v, hv, u, hu, hlacks⟩

end Methods

end Check

open Check Execution in
/-- **Return paths are decided exactly.** A method that returns a value is reported for a missing
return just if a run of its body ends behind it. -/
theorem check_missingReturn {source : Text} {d : Document} (h : parse source = .ok d) {m : Nat}
    {s : Tree} (hs : d.tree.subtree? m = some s) {name : String} {ms : List Modifier}
    {type : TypeName} (hkind : s.kind = .methodDecl name ms type) (value : type ≠ .void) :
    ∃ id body, d.methodBody? m = some (id, body) ∧ d.tree.subtree? id = some body ∧
      ((∃ diagnostic ∈ check d, diagnostic.code = "CS0161" ∧ diagnostic.span = s.span) ↔
        ∃ ev, Runs [] id body ev .ended) := by
  obtain ⟨-, -, -, -, -, hgrammatical, -⟩ := conforms_of_parse h
  have hmethod : m ∈ d.tree.methods := Tree.mem_methods.mpr ⟨s, hs, by rw [hkind]; rfl⟩
  obtain ⟨id, body, hbody, hsubtree, hlast, hconforms⟩ :=
    hgrammatical.methodBody?_eq hs (by rw [hkind]; rfl)
  refine ⟨id, body, hbody, hsubtree, ?_⟩
  rw [← ends_iff hconforms.body [] id]
  constructor
  · intro hreported
    obtain ⟨diagnostic, hdiagnostic, hcode, hspan⟩ := hreported
    obtain ⟨f, hf, rfl⟩ := List.mem_map.mp hdiagnostic
    obtain ⟨u, hu, hlacks⟩ := (mem_findings hgrammatical hcode).mp hf
    obtain ⟨n, hn⟩ := List.getElem?_of_mem hu
    cases hlacks with
    | method hkind' value' hlast' ends =>
        have hother : n ∈ d.tree.methods := Tree.mem_methods.mpr ⟨u, hn, by rw [hkind']; rfl⟩
        obtain rfl := eq_of_span_eq h hother hmethod hn hs hspan
        obtain rfl := Option.some.inj (hn.symm.trans hs)
        obtain rfl := Option.some.inj (hlast'.symm.trans hlast)
        exact ends
  · intro hends
    have hlacks : Lacks s (.missingReturn name, s.span) := .method hkind value hlast hends
    have hfound := (mem_findings hgrammatical rfl).mpr ⟨s, List.mem_of_getElem? hs, hlacks⟩
    exact ⟨_, List.mem_map.mpr ⟨_, hfound, rfl⟩, rfl, rfl⟩

open Execution in
/-- A loop that only a return leaves is not run to its end. -/
theorem check_missingReturn_loop : ∃ d id body,
    parse "class A { int F(bool b) { while (true) if (b) return 1; } }".toList = .ok d ∧
      d.methodBody? 2 = some (id, body) ∧ ¬∃ ev, Runs [] id body ev .ended := by
  have hread : (parse
      "class A { int F(bool b) { while (true) if (b) return 1; } }".toList).toOption.any
        (fun d => (check d).isEmpty &&
          d.tree.subtrees[2]?.map Tree.kind == some (.methodDecl "F" [] .int)) = true := by
    decide +kernel
  obtain ⟨d, hd, hfacts⟩ := exists_document_of_any hread
  rw [Bool.and_eq_true, List.isEmpty_iff, beq_iff_eq, Option.map_eq_some_iff] at hfacts
  obtain ⟨hnone, s, hs, hkind⟩ := hfacts
  obtain ⟨id, body, hbody, -, hdecided⟩ := check_missingReturn hd hs hkind (by decide)
  refine ⟨d, id, body, hd, hbody, ?_⟩
  rw [← hdecided, hnone]
  nofun

end SharpMutants
