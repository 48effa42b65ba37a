import SharpMutants.Proofs.Layout.Flow
import SharpMutants.Check.Checker

/-!
# Findings do not depend on layout

Checking a bare tree in a bare state does what checking the tree does, but at no places: each
operation of the check commutes with laying bare, and so does the check of an expression
(`Check.expression_bare`), of a statement (`Check.statement_bare`) and of a class.  Hence a
tree and its bare tree have the same findings, one after another (`Check.findings_bare`), and
documents of one shape get the same diagnostics up to their places.

An operation that is told a place is laid bare from the outside in (`State.bare_report`): the
place cannot be had back from a bare state.  One that is told trees only is laid bare from
the inside out (`Check.condition_bare`).
-/

namespace SharpMutants

namespace Check

/-! ## Bare states -/

/-- A local without the place of its declarator. -/
def Local.bare (l : Local) : Local := { l with declarator := .nowhere }

/-- A scope without the places of its locals. -/
def Scope.bare (s : Scope) : Scope := { s with locals := s.locals.map Local.bare }

/-- A state of the check without places. -/
def State.bare (s : State) : State :=
  ⟨s.scopes.map Scope.bare, s.flow, s.findings.map fun f => (f.1, .nowhere)⟩

/-- A type and a state without places. -/
def bareAnswer (r : Ty × State) : Ty × State := (r.1, r.2.bare)

@[simp] theorem Local.name_bare (l : Local) : l.bare.name = l.name := rfl

@[simp] theorem Local.type_bare (l : Local) : l.bare.type = l.type := rfl

theorem State.scopes_bare (s : State) : s.bare.scopes = s.scopes.map Scope.bare := rfl

@[simp] theorem bareAnswer_mk (ty : Ty) (s : State) : bareAnswer (ty, s) = (ty, s.bare) := rfl

@[simp] theorem snd_bareAnswer (r : Ty × State) : (bareAnswer r).2 = r.2.bare := rfl

@[simp] theorem State.flow_bare (s : State) : s.bare.flow = s.flow := rfl

@[simp] theorem State.withFlow_bare (s : State) (flow : Flow) :
    ({ s.bare with flow := flow } : State) = ({ s with flow := flow } : State).bare := rfl

/-- A finding is reported without its place. -/
@[simp] theorem State.bare_report (s : State) (finding : Finding) (site : Span) :
    (s.report finding site).bare = s.bare.report finding .nowhere := rfl

/-- A finding that is reported under a test is reported without its place. -/
@[simp] theorem State.bare_reportIf (s : State) (test : Bool) (finding : Finding) (site : Span) :
    (s.reportIf test finding site).bare = s.bare.reportIf test finding .nowhere := by
  cases test <;> rfl

/-- Opening a scope does not depend on layout. -/
@[simp] theorem State.openScope_bare (s : State) (reserved : List String) :
    s.bare.openScope reserved = (s.openScope reserved).bare := rfl

/-- An unused local is reported without its place. -/
@[simp] theorem State.bare_reportUnused (s : State) (l : Local) :
    (s.reportUnused l).bare = s.bare.reportUnused l.bare := by
  cases hread : l.isRead <;> simp [reportUnused, Local.bare, hread]

/-- A fold does not depend on layout, if its step does not. -/
theorem State.bare_foldl {α : Type} {op op' : State → α → State} {f : α → α}
    (h : ∀ s a, (op s a).bare = op' s.bare (f a)) (as : List α) (s : State) :
    (as.foldl op s).bare = (as.map f).foldl op' s.bare := by
  induction as generalizing s with
  | nil => rfl
  | cons a as ih => rw [List.foldl_cons, ih, h, List.map_cons, List.foldl_cons]

@[simp] theorem State.closeScope_bare (s : State) : s.bare.closeScope = s.closeScope.bare := by
  rw [closeScope, closeScope, scopes_bare]
  cases s.scopes with
  | nil => rfl
  | cons scope rest =>
      rw [List.map_cons]
      dsimp only [Scope.bare]
      rw [← List.map_reverse]
      exact (bare_foldl bare_reportUnused scope.locals.reverse { s with scopes := rest }).symm

/-- What a scope declares does not depend on layout. -/
@[simp] theorem Scope.declares_bare (scope : Scope) (name : String) :
    scope.bare.declares name = scope.declares name := by
  rw [declares, bare, List.any_map, declares]
  rfl

/-- Declaring a local does not depend on layout. -/
@[simp] theorem State.bare_declare (env : Env) (s : State) (name : String) (type : Ty)
    (declarator : Span) (initialized : Bool) :
    (s.declare env name type declarator initialized).bare =
      s.bare.declare env name type .nowhere initialized := by
  rw [declare, declare, scopes_bare]
  cases s.scopes with
  | nil => rfl
  | cons scope outer =>
      have hreserved : ∀ o : Scope, o.bare.reserved = o.reserved := fun _ => rfl
      rw [List.map_cons]
      dsimp only
      rw [Scope.declares_bare, List.any_map]
      simp only [Function.comp_def, Scope.declares_bare, hreserved]
      cases scope.declares name with
      | true => rfl
      | false =>
          cases (typeIn? env.parameters name).isSome ||
            outer.any fun o => o.declares name || o.reserved.contains name <;> rfl

/-- Converting a type does not depend on layout. -/
@[simp] theorem State.bare_convert (s : State) (given wanted : Ty) (site : Span) :
    (s.convert given wanted site).bare = s.bare.convert given wanted .nowhere := by
  rw [convert, convert]
  split
  · rfl
  · exact bare_reportIf s _ _ site

/-! ## Names -/

section Names

variable (change : Local → Local) (h : ∀ l : Local, change l.bare = (change l).bare)

include h

/-- Changing a local of a scope does not depend on layout. -/
theorem Scope.updateLocal?_bare (name : String) (ls : List Local) :
    updateLocal? change name (ls.map Local.bare) =
      (updateLocal? change name ls).map fun r => (r.1, r.2.map Local.bare) := by
  induction ls with
  | nil => rfl
  | cons l ls ih =>
      rw [List.map_cons, updateLocal?, updateLocal?, ih, Local.name_bare, Local.type_bare, h]
      split
      · rfl
      · rw [Option.map_map, Option.map_map]
        rfl

/-- Changing a local of the scopes does not depend on layout. -/
theorem Scope.update?_bare (name : String) (ss : List Scope) :
    update? change name (ss.map Scope.bare) =
      (update? change name ss).map fun r => (r.1, r.2.map Scope.bare) := by
  induction ss with
  | nil => rfl
  | cons s ss ih =>
      rw [List.map_cons, update?, update?, ih]
      dsimp only [Scope.bare]
      rw [updateLocal?_bare change h]
      cases updateLocal? change name s.locals with
      | none =>
          dsimp only [Option.map_none]
          rw [Option.map_map, Option.map_map]
          rfl
      | some r => rfl

end Names

/-- Naming what is no local does not depend on layout. -/
@[simp] theorem State.bareAnswer_nonLocal (env : Env) (s : State) (name : String) (site : Span) :
    bareAnswer (s.nonLocal env name site) = s.bare.nonLocal env name .nowhere := by
  rw [nonLocal, nonLocal]
  split
  · rfl
  · split <;> rfl

/-- Reading a name does not depend on layout. -/
@[simp] theorem State.bareAnswer_read (env : Env) (s : State) (name : String) (site : Span) :
    bareAnswer (s.read env name site) = s.bare.read env name .nowhere := by
  rw [read, read, scopes_bare, Scope.update?_bare (fun l => { l with isRead := true }) fun _ => rfl]
  cases Scope.update? (fun l => { l with isRead := true }) name s.scopes with
  | none => exact bareAnswer_nonLocal env s name site
  | some r =>
      dsimp only [Option.map_some]
      rw [bareAnswer_mk, bare_reportIf]
      rfl

/-- Writing a name does not depend on layout. -/
@[simp] theorem State.bareAnswer_write (env : Env) (s : State) (name : String) (site : Span) :
    bareAnswer (s.write env name site) = s.bare.write env name .nowhere := by
  rw [write, write, scopes_bare,
    Scope.update?_bare (fun l => { l with isWritten := true }) fun _ => rfl]
  cases Scope.update? (fun l => { l with isWritten := true }) name s.scopes with
  | none => exact bareAnswer_nonLocal env s name site
  | some r => rfl

/-! ## Operations -/

/-- What stands in parentheses does not depend on layout. -/
@[simp] theorem unparenthesize_bare (t : Tree) :
    unparenthesize t.bare = (unparenthesize t).bare := by
  induction t using Tree.inductionOn with
  | node d cs ih =>
      rw [Tree.bare_node, unparenthesize.eq_def, unparenthesize.eq_def]
      dsimp only
      rw [Node.kind_bare]
      cases d.kind with
      | parenthesized =>
          cases cs with
          | nil => rw [List.map_nil, Tree.bare_node, List.map_nil]
          | cons inner more => exact ih inner List.mem_cons_self
      | _ => exact (Tree.bare_node d cs).symm

@[simp] theorem isTrueLiteral_bare (t : Tree) : isTrueLiteral t.bare = isTrueLiteral t := by
  rw [isTrueLiteral, unparenthesize_bare, Tree.kind_bare, isTrueLiteral]

/-- Whether a tree is the magnitude of the least integer does not depend on layout. -/
@[simp] theorem isMinimumMagnitude_bare (t : Tree) :
    isMinimumMagnitude t.bare = isMinimumMagnitude t := by
  rw [isMinimumMagnitude, Tree.kind_bare, isMinimumMagnitude]

@[simp] theorem isZeroLiteral_bare (t : Tree) : isZeroLiteral t.bare = isZeroLiteral t := by
  rw [isZeroLiteral, unparenthesize_bare, Tree.kind_bare, isZeroLiteral]

/-- An integer literal is checked alike in every layout. -/
@[simp] theorem bareAnswer_integerLiteral (s : State) (text : String) (site : Span) :
    bareAnswer (integerLiteral s text site) = integerLiteral s.bare text .nowhere := by
  rw [integerLiteral, integerLiteral]
  split <;> rfl

/-- A binary operation is checked alike in every layout. -/
@[simp] theorem bareAnswer_binaryOperation (s : State) (op : BinaryOp) (l r : Ty) (site : Span)
    (right : Tree) : bareAnswer (binaryOperation s op l r site right) =
      binaryOperation s.bare op l r .nowhere right.bare := by
  rw [binaryOperation, binaryOperation, isZeroLiteral_bare]
  split
  · rfl
  · rw [bareAnswer_mk, State.bare_reportIf]

/-- A unary operation is checked alike in every layout. -/
@[simp] theorem bareAnswer_unaryOperation (s : State) (op : UnaryOp) (ty : Ty) (operand : Span) :
    bareAnswer (unaryOperation s op ty operand) = unaryOperation s.bare op ty .nowhere := by
  rw [unaryOperation, unaryOperation]
  generalize (if op == .not then ty == .bool else ty.isNumeric) = fits
  split <;> rfl

/-- A step of a variable up or down is checked alike in every layout. -/
@[simp] theorem bareAnswer_stepVariable (env : Env) (s : State) (op : UnaryOp) (name : String)
    (target operand : Span) : bareAnswer (stepVariable env s op name target operand) =
      stepVariable env s.bare op name .nowhere .nowhere := by
  rw [stepVariable, stepVariable, ← State.bareAnswer_read env s name target]
  rcases s.read env name target with ⟨ty, s⟩
  dsimp only [bareAnswer_mk]
  rw [← State.bareAnswer_write env s name target]
  rcases s.write env name target with ⟨ty', s⟩
  dsimp only [bareAnswer_mk]
  split <;> rfl

/-! ## Calls -/

/-- A typed argument without its place. -/
def bareArgument (a : Span × Ty) : Span × Ty := (.nowhere, a.2)

/-- A signature accepts arguments by their types only. -/
theorem accepts_bare (signature : Signature) (args : List (Span × Ty)) :
    accepts signature (args.map bareArgument) = accepts signature args := by
  rw [accepts, List.zip_map_right, List.all_map, accepts]
  rfl

/-- A call of the console is checked alike in every layout. -/
@[simp] theorem bareAnswer_consoleCall (s : State) (callee : String) (site : Span)
    (args : List (Span × Ty)) : bareAnswer (consoleCall s callee site args) =
      consoleCall s.bare callee .nowhere (args.map bareArgument) := by
  have hvoid : (args.zipIdx.foldl (fun s a =>
        s.reportIf (a.1.2 == .void) (.voidArgument (a.2 + 1)) a.1.1) s).bare =
      (args.map bareArgument).zipIdx.foldl (fun s a =>
        s.reportIf (a.1.2 == .void) (.voidArgument (a.2 + 1)) a.1.1) s.bare := by
    rw [List.zipIdx_map]
    apply State.bare_foldl
    rintro s ⟨⟨span, ty⟩, i⟩
    exact State.bare_reportIf s _ _ span
  simp only [consoleCall, List.length_map]
  split
  · split
    · rfl
    · exact congrArg (Prod.mk Ty.void) hvoid
  · split
    · split
      · rfl
      · exact congrArg (Prod.mk Ty.void) hvoid
    · rfl

/-- A call of a method is checked alike in every layout. -/
@[simp] theorem bareAnswer_methodCall (env : Env) (s : State) (callee : String) (site : Span)
    (args : List (Span × Ty)) : bareAnswer (methodCall env s callee site args) =
      methodCall env s.bare callee .nowhere (args.map bareArgument) := by
  have hargs : ∀ ps : List Ty, ((ps.zip args).zipIdx.foldl (fun s a =>
        s.reportIf (!a.1.2.2.convertsTo a.1.1) (.argument (a.2 + 1) a.1.2.2 a.1.1) a.1.2.1) s).bare =
      (ps.zip (args.map bareArgument)).zipIdx.foldl (fun s a =>
        s.reportIf (!a.1.2.2.convertsTo a.1.1) (.argument (a.2 + 1) a.1.2.2 a.1.1) a.1.2.1)
          s.bare := by
    intro ps
    rw [List.zip_map_right, List.zipIdx_map]
    apply State.bare_foldl
    rintro s ⟨⟨p, span, a⟩, i⟩
    exact State.bare_reportIf s _ _ span
  simp only [methodCall, List.length_map, accepts_bare]
  split
  · rfl
  · split
    · rfl
    · split
      · rfl
      · exact congrArg (Prod.mk _) (hargs _)

/-- A call is checked alike in every layout. -/
@[simp] theorem bareAnswer_call (env : Env) (s : State) (callee : String) (site : Span)
    (args : List (Span × Ty)) : bareAnswer (call env s callee site args) =
      call env s.bare callee .nowhere (args.map bareArgument) := by
  rw [call, call]
  split
  · exact bareAnswer_methodCall env s callee site args
  · split
    · exact bareAnswer_consoleCall s _ site args
    · rfl

/-! ## Expressions -/

/-- Expressions in a row are checked alike in every layout, if each of them is. -/
theorem expressions_bare (env : Env) {ts : List Tree} (h : ∀ t ∈ ts, ∀ s,
    expression env s.bare t.bare = bareAnswer (expression env s t)) (s : State) :
    expressions env s.bare (ts.map Tree.bare) =
      ((expressions env s ts).1.map bareArgument, (expressions env s ts).2.bare) := by
  induction ts generalizing s with
  | nil => rfl
  | cons t ts ih =>
      rw [List.forall_mem_cons] at h
      rw [List.map_cons, expressions, expressions, h.1]
      dsimp only [bareAnswer]
      rw [ih h.2, Tree.span_bare]
      rfl

/-- **An expression** is checked alike in every layout. -/
theorem expression_bare (env : Env) (t : Tree) (s : State) :
    expression env s.bare t.bare = bareAnswer (expression env s t) := by
  induction t using Tree.inductionOn generalizing s with
  | node d cs ih =>
      rw [Tree.bare_node, expression.eq_def, expression.eq_def]
      dsimp only
      rw [Node.kind_bare]
      cases d.kind with
      | literal value =>
          dsimp only
          cases value.kind with
          | int => exact (bareAnswer_integerLiteral s value.text d.span).symm
          | _ => rfl
      | identifier name => exact (State.bareAnswer_read env s name d.span).symm
      | parenthesized =>
          cases cs with
          | nil => rfl
          | cons inner more => exact ih inner List.mem_cons_self s
      | binary op =>
          match cs, ih with
          | [], _ | [_], _ | _ :: _ :: _ :: _, _ => rfl
          | [l, r], ih =>
              rw [List.map_cons, List.map_cons, List.map_nil]
              dsimp only
              rw [ih l (by simp)]
              rcases expression env s l with ⟨left, s⟩
              dsimp only [bareAnswer_mk]
              rw [ih r (by simp)]
              rcases expression env s r with ⟨right, s'⟩
              dsimp only [bareAnswer_mk]
              rw [bareAnswer_binaryOperation]
              split <;> rfl
      | prefixUnary op | postfixUnary op =>
          cases cs with
          | nil => rfl
          | cons operand more =>
              rw [List.map_cons]
              dsimp only
              rw [isMinimumMagnitude_bare, unparenthesize_bare, Tree.kind_bare, Tree.span_bare,
                Tree.span_bare, ih operand List.mem_cons_self]
              split
              · rfl
              · split
                · cases (unparenthesize operand).kind with
                  | identifier name => exact (bareAnswer_stepVariable env s op name _ _).symm
                  | _ => rfl
                · exact (bareAnswer_unaryOperation _ op _ _).symm
      | assignment op =>
          match cs, ih with
          | [], _ | [_], _ | _ :: _ :: _ :: _, _ => rfl
          | [target, value], ih =>
              have htarget := ih target (by simp)
              have hvalue := ih value (by simp)
              rw [List.map_cons, List.map_cons, List.map_nil]
              dsimp only
              rw [unparenthesize_bare, Tree.kind_bare, Tree.span_bare, Tree.span_bare,
                Tree.span_bare]
              generalize (unparenthesize target).span = site
              cases (unparenthesize target).kind with
              | identifier name =>
                  cases op.binaryOp? with
                  | none =>
                      dsimp only
                      rw [hvalue]
                      rcases expression env s value with ⟨given, s⟩
                      dsimp only [bareAnswer_mk]
                      rw [← State.bareAnswer_write env s name site]
                      rcases s.write env name site with ⟨wanted, s⟩
                      dsimp only [bareAnswer_mk]
                      rw [State.bare_convert]
                  | some arithmetic =>
                      dsimp only
                      rw [← State.bareAnswer_read env s name site]
                      rcases s.read env name site with ⟨current, s⟩
                      simp only [bareAnswer_mk, hvalue]
                      rcases expression env s value with ⟨given, s⟩
                      simp only [bareAnswer_mk, ← State.bareAnswer_write env s name site]
                      rcases s.write env name site with ⟨wanted, s⟩
                      simp only [bareAnswer_mk,
                        ← bareAnswer_binaryOperation s arithmetic current given target.span]
                      split
                      · rfl
                      · exact congrArg (Prod.mk wanted) (State.bare_convert _ _ _ _).symm
              | _ =>
                  dsimp only
                  rw [htarget]
                  dsimp only [bareAnswer]
                  rw [hvalue]
                  rfl
      | invocation callee =>
          dsimp only
          rw [expressions_bare env ih, bareAnswer_call]
          rfl
      | _ => rfl

/-! ## Statements -/

/-- A condition is checked alike in every layout. -/
@[simp] theorem condition_bare (env : Env) (s : State) (t : Tree) :
    condition env s.bare t.bare = (condition env s t).bare := by
  rw [condition, condition, expression_bare, Tree.span_bare]
  exact (State.bare_convert _ _ _ _).symm

/-- Declarators are checked alike in every layout. -/
theorem declarators_bare (env : Env) (type : Ty) (ts : List Tree) (s : State) :
    declarators env type s.bare (ts.map Tree.bare) = (declarators env type s ts).bare := by
  induction ts generalizing s with
  | nil => rfl
  | cons t ts ih =>
      rw [List.map_cons, declarators, declarators, Tree.kind_bare, Tree.children_bare,
        Tree.span_bare]
      cases t.kind with
      | variableDeclarator name =>
          cases t.children with
          | nil =>
              dsimp only [List.map_nil]
              rw [← State.bare_declare env s name type t.span false, ← ih]
              rfl
          | cons init more =>
              rw [List.map_cons]
              dsimp only
              rw [expression_bare, Tree.span_bare]
              dsimp only [bareAnswer]
              rw [← State.bare_convert _ _ _ init.span, ← State.bare_declare env _ name _ t.span,
                ← ih]
              rfl
      | _ => exact ih s

/-- A declaration is checked alike in every layout. -/
@[simp] theorem declaration_bare (env : Env) (s : State) (t : Tree) :
    declaration env s.bare t.bare = (declaration env s t).bare := by
  rw [declaration, declaration, Tree.kind_bare, Tree.children_bare]
  split
  · exact declarators_bare env _ _ s
  · rfl

/-- The names of declarators do not depend on layout. -/
theorem declaratorNames_bare (ts : List Tree) :
    declaratorNames (ts.map Tree.bare) = declaratorNames ts := by
  rw [declaratorNames, List.filterMap_map, declaratorNames]
  congr 1
  funext t
  rw [Function.comp_apply, Tree.kind_bare]

/-- The names that statements declare do not depend on layout. -/
@[simp] theorem declaredNames_bare (ts : List Tree) :
    declaredNames (ts.map Tree.bare) = declaredNames ts := by
  rw [declaredNames, List.flatMap_map, declaredNames]
  congr 1
  funext t
  rw [Tree.kind_bare, Tree.children_bare]
  cases t.kind with
  | localDeclaration => cases t.children <;> simp [declaratorNames_bare]
  | _ => rfl

/-- The warning about an empty body does not depend on layout. -/
@[simp] theorem warnEmptyBody_bare (s : State) (body : Tree) :
    warnEmptyBody s.bare body.bare = (warnEmptyBody s body).bare := by
  rw [warnEmptyBody, warnEmptyBody, State.bare_reportIf, Tree.kind_bare, Tree.span_bare]

/-- An expression statement is checked alike in every layout. -/
theorem expressionStatement_bare (env : Env) (s : State) (t : Tree) :
    expressionStatement env s.bare t.bare = (expressionStatement env s t).bare := by
  rw [expressionStatement, expressionStatement, Tree.kind_bare, Tree.span_bare,
    ← State.bare_reportIf s _ _ t.span, expression_bare]
  rfl

/-- The initializer of a loop is checked alike in every layout. -/
@[simp] theorem loopInit_bare (env : Env) (s : State) (t : Tree) :
    loopInit env s.bare t.bare = (loopInit env s t).bare := by
  rw [loopInit, loopInit, Tree.kind_bare, expression_bare]
  split
  · exact declaration_bare env s t
  · rfl

/-- The flow behind a loop does not depend on layout. -/
@[simp] theorem loopExit_bare (cond : Tree) (flow : Flow) :
    loopExit cond.bare flow = loopExit cond flow := by
  rw [loopExit, isTrueLiteral_bare, loopExit]

/-- A `return` is checked alike in every layout. -/
theorem returnStatement_bare (env : Env) (s : State) (site : Span) (ts : List Tree) :
    returnStatement env s.bare .nowhere (ts.map Tree.bare) =
      (returnStatement env s site ts).bare := by
  cases ts with
  | nil =>
      rw [List.map_nil, returnStatement, returnStatement, ← State.bare_reportIf s _ _ site]
      rfl
  | cons value more =>
      rw [List.map_cons, returnStatement, returnStatement, expression_bare, Tree.span_bare]
      dsimp only [bareAnswer]
      split
      · rfl
      · rw [← State.bare_convert _ _ _ value.span]
        rfl

/-- Statements in a row are checked alike in every layout, if each of them is. -/
theorem statements_bare_of_forall (env : Env) {ts : List Tree}
    (h : ∀ t ∈ ts, ∀ s, statement env s.bare t.bare = (statement env s t).bare) (warned : Bool)
    (s : State) : statements env warned s.bare (ts.map Tree.bare) =
      (statements env warned s ts).bare := by
  induction ts generalizing warned s with
  | nil => rfl
  | cons t ts ih =>
      rw [List.forall_mem_cons] at h
      rw [List.map_cons, statements, statements, Tree.kind_bare, Tree.span_bare, State.flow_bare,
        ← State.bare_reportIf s _ _ t.span, h.1, ih h.2]

/-- **A statement** is checked alike in every layout. -/
theorem statement_bare (env : Env) (t : Tree) (s : State) :
    statement env s.bare t.bare = (statement env s t).bare := by
  -- The branch behind an `else` is a child of a child.
  induction t using Tree.induct_below generalizing s with
  | node d cs ih =>
      have hown := fun c hc => (ih c hc).1
      rw [Tree.bare_node, statement.eq_def, statement.eq_def]
      dsimp only
      rw [Node.kind_bare]
      cases d.kind with
      | block =>
          dsimp only
          rw [declaredNames_bare, State.openScope_bare, statements_bare_of_forall env hown,
            State.closeScope_bare]
      | localDeclaration =>
          cases cs with
          | nil => rfl
          | cons t more => exact declaration_bare env s t
      | expressionStatement =>
          cases cs with
          | nil => rfl
          | cons t more => exact expressionStatement_bare env s t
      | ifStatement =>
          match cs, ih, hown with
          | [], _, _ | [_], _, _ => rfl
          | [cond, branch], _, hown =>
              simp [hown]
          | cond :: branch :: .node clause [] :: more, _, hown =>
              simp [hown, Tree.bare_node]
          | cond :: branch :: .node clause (other :: others) :: more, ih, hown =>
              have hclause := ih (.node clause (other :: others)) (by simp)
              have hother := hclause.2 other List.mem_cons_self
              simp [hown, hother, Tree.bare_node]
      | whileStatement =>
          match cs, hown with
          | [], _ | [_], _ => rfl
          | cond :: body :: more, hown =>
              simp [hown]
      | forStatement =>
          match cs, hown with
          | [], _ | [_], _ | [_, _], _ | [_, _, _], _ | _ :: _ :: _ :: _ :: _ :: _, _ => rfl
          | [init, cond, step, body], hown =>
              simp [hown, expression_bare, ← apply_ite State.bare]
      | returnStatement => exact returnStatement_bare env s d.span cs
      | _ => rfl

/-! ## Members -/

/-- A body is checked alike in every layout. -/
theorem body_bare (env : Env) (s : State) (t : Tree) :
    body env s.bare t.bare = (body env s t).bare := by
  rw [body, body, Tree.children_bare, declaredNames_bare, State.openScope_bare,
    statements_bare_of_forall env fun t _ => statement_bare env t, State.closeScope_bare]

/-- Parameters are checked alike in every layout. -/
theorem parameters_bare (ts : List Tree) (s : State) (known : List (String × Ty)) :
    parameters s.bare known (ts.map Tree.bare) =
      ((parameters s known ts).1, (parameters s known ts).2.bare) := by
  induction ts generalizing s known with
  | nil => rfl
  | cons t ts ih =>
      rw [List.map_cons, parameters, parameters, Tree.kind_bare, Tree.span_bare]
      cases t.kind with
      | parameter name type =>
          dsimp only
          rw [← State.bare_reportIf s _ _ t.span, ih]
      | _ => exact ih s known

/-- The members of a class without layout. -/
def Members.bare (m : Members) : Members :=
  { m with initializers := m.initializers.map fun e => (e.1.bare, e.2) }

/-- Members and a state without layout. -/
def bareMembers (r : Members × State) : Members × State := (r.1.bare, r.2.bare)

/-- A declarator of a field is checked alike in every layout. -/
theorem fieldDeclarator_bare (className : String) (type : Ty) (m : Members) (s : State) (t : Tree) :
    fieldDeclarator className type m.bare s.bare t.bare =
      bareMembers (fieldDeclarator className type m s t) := by
  rw [fieldDeclarator, fieldDeclarator, Tree.kind_bare, Tree.children_bare, Tree.span_bare]
  cases t.kind with
  | variableDeclarator name =>
      dsimp only
      rw [bareMembers, State.bare_reportIf]
      cases t.children <;> simp [Members.bare]
  | _ => rfl

/-- The signature of a method does not depend on layout. -/
theorem signatureOf_bare (result : TypeName) (ts : List Tree) :
    signatureOf result (ts.map Tree.bare) = signatureOf result ts := by
  rw [signatureOf, List.filterMap_map, signatureOf]
  congr 2
  funext t
  rw [Function.comp_apply, Tree.kind_bare]

/-- A fold over members does not depend on layout, if its step does not. -/
theorem foldl_bareMembers {op : Members → State → Tree → Members × State}
    (h : ∀ m s t, op m.bare s.bare t.bare = bareMembers (op m s t)) (ts : List Tree)
    (r : Members × State) :
    (ts.map Tree.bare).foldl (fun r t => op r.1 r.2 t) (bareMembers r) =
      bareMembers (ts.foldl (fun r t => op r.1 r.2 t) r) := by
  induction ts generalizing r with
  | nil => rfl
  | cons t ts ih =>
      rw [List.map_cons, List.foldl_cons, List.foldl_cons, ← ih, ← h]
      rfl

/-- A member is collected alike in every layout. -/
theorem member_bare (className : String) (m : Members) (s : State) (t : Tree) :
    member className m.bare s.bare t.bare = bareMembers (member className m s t) := by
  rw [member, member, Tree.kind_bare, Tree.children_bare]
  cases t.kind with
  | fieldDecl mods =>
      cases t.children with
      | nil => rfl
      | cons declaration more =>
          rw [List.map_cons]
          dsimp only
          rw [Tree.kind_bare, Tree.children_bare]
          split
          · exact foldl_bareMembers (fieldDeclarator_bare className _) _ (m, s)
          · rfl
  | methodDecl name mods result =>
      dsimp only
      rw [signatureOf_bare, Tree.span_bare, apply_ite bareMembers]
      rfl
  | _ => rfl

/-- A method is checked alike in every layout. -/
theorem method_bare (m : Members) (s : State) (t : Tree) :
    method m.bare s.bare t.bare = (method m s t).bare := by
  rw [method, method, Tree.kind_bare, Tree.children_bare, List.getLast?_map]
  cases t.kind with
  | methodDecl name mods result =>
      cases t.children.getLast? with
      | none => rfl
      | some last =>
          dsimp only [Option.map_some]
          rw [← List.map_dropLast, parameters_bare, Tree.span_bare, State.withFlow_bare, body_bare,
            State.bare_reportIf, State.flow_bare]
          rfl
  | _ => rfl

/-- An initializer of a field is checked alike in every layout. -/
theorem initializer_bare (m : Members) (s : State) (init : Tree) (type : Ty) :
    initializer m.bare s.bare init.bare type = (initializer m s init type).bare := by
  rw [initializer, initializer, State.withFlow_bare, expression_bare, Tree.span_bare]
  exact (State.bare_convert _ _ _ _).symm

/-- A class is checked alike in every layout. -/
theorem classDecl_bare (s : State) (t : Tree) :
    classDecl s.bare t.bare = (classDecl s t).bare := by
  rw [classDecl, classDecl, Tree.kind_bare, Tree.children_bare]
  cases t.kind with
  | classDecl name mods =>
      have hmembers : (t.children.map Tree.bare).foldl (fun r c => member name r.1 r.2 c)
          (⟨[], [], []⟩, s.bare) =
            bareMembers (t.children.foldl (fun r c => member name r.1 r.2 c) (⟨[], [], []⟩, s)) :=
        foldl_bareMembers (member_bare name) t.children (⟨[], [], []⟩, s)
      dsimp only
      rw [hmembers]
      rcases t.children.foldl (fun r c => member name r.1 r.2 c) (⟨[], [], []⟩, s) with ⟨m, s⟩
      have hinitializers : (m.initializers.foldl (fun s e => initializer m s e.1 e.2) s).bare =
          m.bare.initializers.foldl (fun s e => initializer m.bare s e.1 e.2) s.bare := by
        apply State.bare_foldl
        exact fun s e => (initializer_bare m s e.1 e.2).symm
      have hmethods := State.bare_foldl (fun s t => (method_bare m s t).symm) t.children
      dsimp only [bareMembers]
      rw [hmethods, hinitializers]
  | _ => rfl

/-- **The findings** in a bare tree are those in the tree, without their places. -/
theorem findings_bare (t : Tree) : findings t.bare = (findings t).map fun f => (f.1, .nowhere) := by
  have hclasses := State.bare_foldl (fun s t => (classDecl_bare s t).symm) t.subtrees .initial
  rw [findings, Tree.subtrees_bare, findings, List.map_reverse]
  exact congrArg (fun s => s.findings.reverse) hclasses.symm

end Check

/-- What a diagnostic says, wherever it stands. -/
def Diagnostic.remark (x : Diagnostic) : Severity × String × String :=
  (x.severity, x.code, x.message)

section Documents

variable {d d' : Document} (h : d.tree.shape = d'.tree.shape)

include h

/-- **Documents of one shape** get the same diagnostics up to their places. -/
theorem remarks_check : (check d).map Diagnostic.remark = (check d').map Diagnostic.remark := by
  have hfindings : (Check.findings d.tree).map Prod.fst =
      (Check.findings d'.tree).map Prod.fst := by
    have hbare := congrArg Check.findings (Tree.bare_eq_iff.mpr h)
    rw [Check.findings_bare, Check.findings_bare] at hbare
    have hfirst := congrArg (List.map Prod.fst) hbare
    rwa [List.map_map, List.map_map] at hfirst
  have hsay : ∀ e : Document, (check e).map Diagnostic.remark = ((Check.findings e.tree).map
      Prod.fst).map fun finding => (finding.severity, finding.code, finding.message) := by
    intro e
    rw [check, List.map_map, List.map_map]
    rfl
  rw [hsay, hsay, hfindings]

/-- The errors of sources with the same bare tree say the same. -/
theorem remarks_errors : ((check d).filter Diagnostic.isError).map Diagnostic.remark =
    ((check d').filter Diagnostic.isError).map Diagnostic.remark := by
  have herrors : ∀ xs : List Diagnostic, (xs.filter Diagnostic.isError).map Diagnostic.remark =
      (xs.map Diagnostic.remark).filter fun r => r.1 == .error := by
    intro xs
    rw [List.filter_map]
    rfl
  rw [herrors, herrors, remarks_check h]

/-- Sources with the same bare tree are accepted or rejected alike. -/
theorem accepted_check_congr :
    Diagnostics.accepted (check d) = Diagnostics.accepted (check d') := by
  have haccepted : ∀ xs : List Diagnostic, Diagnostics.accepted xs =
      !(xs.map Diagnostic.remark).any fun r => r.1 == .error := by
    intro xs
    rw [List.any_map]
    rfl
  rw [haccepted, haccepted, remarks_check h]

end Documents

end SharpMutants
