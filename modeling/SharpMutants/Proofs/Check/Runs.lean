import SharpMutants.Dataflow.Variables

/-!
# Runs of a statement

A run says what happens to the locals while a statement is executed, and how it ends:
behind the statement, at a return, or anywhere on the way (`Runs`).  A condition may come out
either way, whatever it is; but a loop whose condition is the literal `true` is not left
by it (`AlwaysTrue`).  The right operand of `&&` and `||` may be skipped, all other
operands are evaluated from left to right (`Evaluates`).

A local goes by the node of its declarator, and a name stands for the latest local of that
name in the innermost open scope that has one (`resolve?`).  Which locals are in scope
behind a statement does not depend on the run: a declaration that is itself a branch or
the body of a loop adds its locals to the scope around, executed or not (`locals`).
-/

namespace SharpMutants.Execution

/-- The literal `true`, in parentheses or not. -/
inductive AlwaysTrue : Tree → Prop
  | literal {d : Node} {cs : List Tree} (hkind : d.kind = .literal ⟨.bool, "true"⟩) :
      AlwaysTrue (.node d cs)
  | parenthesized {d : Node} {t : Tree} {cs : List Tree} (hkind : d.kind = .parenthesized)
      (inner : AlwaysTrue t) : AlwaysTrue (.node d (t :: cs))

/-! ## Scopes -/

/-- The locals of the open scopes by name: innermost scope first, and in a scope the latest
first. -/
abbrev Frames := List (List (String × Nat))

/-- The local that a name stands for. -/
def resolve? (fs : Frames) (name : String) : Option Nat := fs.findSome? fun f => f.lookup name

/-- A local joins the innermost scope, unless one of that name is there. -/
def declare (fs : Frames) (name : String) (ℓ : Nat) : Frames :=
  match fs with
  | [] => []
  | f :: outer => if (f.lookup name).isSome then f :: outer else ((name, ℓ) :: f) :: outer

/-- Locals join the innermost scope one after another. -/
def declareAll (fs : Frames) (es : List (String × Nat)) : Frames :=
  es.foldl (fun fs e => declare fs e.1 e.2) fs

/-- The locals among numbered trees. -/
def declared (ds : List (Nat × Tree)) : List (String × Nat) :=
  ds.filterMap fun (n, t) =>
    match t.kind with
    | .variableDeclarator name => some (name, n)
    | _ => none

/-- A declarator declares its name. -/
theorem declared_declarator {n : Nat} {t : Tree} {name : String}
    (hkind : t.kind = .variableDeclarator name) (ds : List (Nat × Tree)) :
    declared ((n, t) :: ds) = (name, n) :: declared ds := by
  rw [declared, List.filterMap_cons]
  simp only [hkind]
  rfl

/-- What is no declarator declares nothing. -/
theorem declared_other {n : Nat} {t : Tree} (hkind : ∀ name, t.kind ≠ .variableDeclarator name)
    (ds : List (Nat × Tree)) : declared ((n, t) :: ds) = declared ds := by
  rw [declared, List.filterMap_cons]
  dsimp only
  split
  · rfl
  · rename_i h
    split at h
    · exact absurd ‹_› (hkind _)
    · cases h

/-- The declarators of a declaration at a node, with their numbers. -/
def declarators (id : Nat) (t : Tree) : List (Nat × Tree) :=
  match t.kind with
  | .variableDeclaration _ => Tree.numberFrom (id + 1) t.children
  | _ => []

/-- The locals that a statement at a node adds to the scope in which it stands. -/
def locals (id : Nat) : Tree → List (String × Nat)
  | .node d cs =>
    match d.kind, cs with
    | .localDeclaration, t :: _ => declared (declarators (id + 1) t)
    | .ifStatement, cond :: body :: rest =>
      locals (id + 1 + cond.size) body ++
        match rest with
        | .node _ (other :: _) :: _ => locals (id + 1 + cond.size + body.size + 1) other
        | _ => []
    | .whileStatement, cond :: body :: _ => locals (id + 1 + cond.size) body
    | _, _ => []

section Locals

variable {id : Nat} {d e : Node} {t cond body other : Tree} {cs : List Tree}

/-- A declaration leaves the locals of its declarators. -/
theorem locals_declaration (hkind : d.kind = .localDeclaration) :
    locals id (.node d [t]) = declared (declarators (id + 1) t) := by
  cases d
  cases hkind
  rfl

/-- An `if` leaves what its branch leaves. -/
theorem locals_ifThen (hkind : d.kind = .ifStatement) :
    locals id (.node d [cond, body]) = locals (id + 1 + cond.size) body := by
  cases d
  cases hkind
  exact List.append_nil _

/-- An `if` with two branches leaves what both leave. -/
theorem locals_ifElse (hkind : d.kind = .ifStatement) :
    locals id (.node d [cond, body, .node e [other]]) = locals (id + 1 + cond.size) body ++
      locals (id + 1 + cond.size + body.size + 1) other := by
  cases d
  cases hkind
  rfl

/-- A `while` leaves what its body leaves. -/
theorem locals_while (hkind : d.kind = .whileStatement) :
    locals id (.node d [cond, body]) = locals (id + 1 + cond.size) body := by
  cases d
  cases hkind
  rfl

end Locals

/-- The open scopes behind a statement. -/
def after (fs : Frames) (id : Nat) (t : Tree) : Frames := declareAll fs (locals id t)

/-- The statements that may add locals to the scope in which they stand. -/
def addsLocals : Kind → Bool
  | .localDeclaration | .ifStatement | .whileStatement => true
  | _ => false

/-- Other statements leave no locals. -/
theorem locals_other {d : Node} (hkind : addsLocals d.kind = false) (id : Nat) (cs : List Tree) :
    locals id (.node d cs) = [] := by
  rw [locals.eq_def]
  dsimp only
  split
  · simp_all [addsLocals]
  · simp_all [addsLocals]
  · simp_all [addsLocals]
  · rfl

/-- Other statements leave the frames as they are. -/
theorem after_other {d : Node} (hkind : addsLocals d.kind = false) (fs : Frames) (id : Nat)
    (cs : List Tree) : after fs id (.node d cs) = fs := by
  rw [after, locals_other hkind]
  rfl

/-! ## Evaluation -/

/-- What happens to a local. -/
inductive Event where
  | declares (ℓ : Nat)
  | assigns (ℓ : Nat)
  | reads (ℓ : Nat)
deriving DecidableEq

/-- What happens to the local that a name stands for, if it stands for one. -/
def touch (event : Nat → Event) (fs : Frames) (name : String) : List Event :=
  ((resolve? fs name).map event).toList

mutual

/-- An expression may be evaluated with these events. -/
inductive Evaluates (fs : Frames) : Tree → List Event → Prop
  | literal {d : Node} {cs : List Tree} {value : Literal} (hkind : d.kind = .literal value) :
      Evaluates fs (.node d cs) []
  | identifier {d : Node} {cs : List Tree} {name : String} (hkind : d.kind = .identifier name) :
      Evaluates fs (.node d cs) (touch .reads fs name)
  | parenthesized {d : Node} {inner : Tree} {ev : List Event} (hkind : d.kind = .parenthesized)
      (value : Evaluates fs inner ev) : Evaluates fs (.node d [inner]) ev
  | binary {d : Node} {op : BinaryOp} {l r : Tree} {ev ev' : List Event}
      (hkind : d.kind = .binary op) (left : Evaluates fs l ev) (right : Evaluates fs r ev') :
      Evaluates fs (.node d [l, r]) (ev ++ ev')
  | shortcut {d : Node} {op : BinaryOp} {l r : Tree} {ev : List Event}
      (hkind : d.kind = .binary op) (hop : op = .and ∨ op = .or) (left : Evaluates fs l ev) :
      Evaluates fs (.node d [l, r]) ev
  | step {d : Node} {op : UnaryOp} {operand : Tree} {name : String}
      (hkind : d.kind = .prefixUnary op ∨ d.kind = .postfixUnary op) (hop : op.isStep = true)
      (hname : Variables.nameOf? operand = some name) :
      Evaluates fs (.node d [operand]) (touch .reads fs name ++ touch .assigns fs name)
  | unary {d : Node} {op : UnaryOp} {operand : Tree} {ev : List Event}
      (hkind : d.kind = .prefixUnary op ∨ d.kind = .postfixUnary op)
      (hop : op.isStep = false ∨ Variables.nameOf? operand = none)
      (value : Evaluates fs operand ev) : Evaluates fs (.node d [operand]) ev
  | simple {d : Node} {op : AssignOp} {target source : Tree} {name : String} {ev : List Event}
      (hkind : d.kind = .assignment op) (hop : op.binaryOp? = none)
      (hname : Variables.nameOf? target = some name) (value : Evaluates fs source ev) :
      Evaluates fs (.node d [target, source]) (ev ++ touch .assigns fs name)
  | compound {d : Node} {op : AssignOp} {arithmetic : BinaryOp} {target source : Tree}
      {name : String} {ev : List Event} (hkind : d.kind = .assignment op)
      (hop : op.binaryOp? = some arithmetic) (hname : Variables.nameOf? target = some name)
      (value : Evaluates fs source ev) :
      Evaluates fs (.node d [target, source])
        (touch .reads fs name ++ (ev ++ touch .assigns fs name))
  | elsewhere {d : Node} {op : AssignOp} {target source : Tree} {ev ev' : List Event}
      (hkind : d.kind = .assignment op) (hname : Variables.nameOf? target = none)
      (place : Evaluates fs target ev) (value : Evaluates fs source ev') :
      Evaluates fs (.node d [target, source]) (ev ++ ev')
  | invocation {d : Node} {callee : String} {args : List Tree} {ev : List Event}
      (hkind : d.kind = .invocation callee) (values : EvaluatesAll fs args ev) :
      Evaluates fs (.node d args) ev

/-- The expressions of a list may be evaluated, one after another, with these events. -/
inductive EvaluatesAll (fs : Frames) : List Tree → List Event → Prop
  | nil : EvaluatesAll fs [] []
  | cons {t : Tree} {ts : List Tree} {ev ev' : List Event} (here : Evaluates fs t ev)
      (rest : EvaluatesAll fs ts ev') : EvaluatesAll fs (t :: ts) (ev ++ ev')

end

/-- Declarators are executed one after another. A local is in scope behind its declarator. -/
inductive Declares : Frames → List (Nat × Tree) → List Event → Prop
  | nil {fs : Frames} : Declares fs [] []
  | uninitialized {fs : Frames} {n : Nat} {d : Node} {name : String} {ds : List (Nat × Tree)}
      {ev : List Event} (hkind : d.kind = .variableDeclarator name)
      (rest : Declares (declare fs name n) ds ev) :
      Declares fs ((n, .node d []) :: ds) (.declares n :: ev)
  | initialized {fs : Frames} {n : Nat} {d : Node} {name : String} {init : Tree}
      {ds : List (Nat × Tree)} {ev ev' : List Event} (hkind : d.kind = .variableDeclarator name)
      (value : Evaluates fs init ev) (rest : Declares (declare fs name n) ds ev') :
      Declares fs ((n, .node d [init]) :: ds) (ev ++ .declares n :: .assigns n :: ev')

/-! ## Runs -/

/-- The scopes behind the initializer of a loop at a node. -/
def afterInit (fs : Frames) (id : Nat) (t : Tree) : Frames :=
  declareAll fs (declared (declarators id t))

/-- An initializer that is no declaration leaves the frames as they are. -/
theorem afterInit_other {t : Tree} (hkind : ∀ type, t.kind ≠ .variableDeclaration type)
    (fs : Frames) (id : Nat) : afterInit fs id t = fs := by
  rw [afterInit, declarators]
  split
  · exact absurd ‹_› (hkind _)
  · rfl

/-- The initializer of a loop at a node is executed. -/
inductive Initializes (fs : Frames) (id : Nat) : Tree → List Event → Prop
  | declaration {t : Tree} {type : TypeName} {ev : List Event}
      (hkind : t.kind = .variableDeclaration type) (body : Declares fs (declarators id t) ev) :
      Initializes fs id t ev
  | expression {t : Tree} {ev : List Event} (value : Evaluates fs t ev) : Initializes fs id t ev

/-- How a run ends: behind the statement, at a return, or anywhere on the way. -/
inductive Outcome where
  | ended
  | returned
  | stopped
deriving DecidableEq

mutual

/-- A statement at a node may be executed with these events and this outcome. -/
inductive Runs : Frames → Nat → Tree → List Event → Outcome → Prop
  | stop (fs : Frames) (id : Nat) (t : Tree) : Runs fs id t [] .stopped
  | block {fs : Frames} {id : Nat} {d : Node} {cs : List Tree} {ev : List Event} {o : Outcome}
      (hkind : d.kind = .block) (body : RunsAll ([] :: fs) (id + 1) cs ev o) :
      Runs fs id (.node d cs) ev o
  | declaration {fs : Frames} {id : Nat} {d : Node} {t : Tree} {ev : List Event}
      (hkind : d.kind = .localDeclaration) (body : Declares fs (declarators (id + 1) t) ev) :
      Runs fs id (.node d [t]) ev .ended
  | expression {fs : Frames} {id : Nat} {d : Node} {t : Tree} {ev : List Event}
      (hkind : d.kind = .expressionStatement) (value : Evaluates fs t ev) :
      Runs fs id (.node d [t]) ev .ended
  | empty {fs : Frames} {id : Nat} {d : Node} {cs : List Tree}
      (hkind : d.kind = .emptyStatement) : Runs fs id (.node d cs) [] .ended
  | returnNothing {fs : Frames} {id : Nat} {d : Node} (hkind : d.kind = .returnStatement) :
      Runs fs id (.node d []) [] .returned
  | returnValue {fs : Frames} {id : Nat} {d : Node} {t : Tree} {ev : List Event}
      (hkind : d.kind = .returnStatement) (value : Evaluates fs t ev) :
      Runs fs id (.node d [t]) ev .returned
  | ifThen {fs : Frames} {id : Nat} {d : Node} {cond body : Tree} {rest : List Tree}
      {ev ev' : List Event} {o : Outcome} (hkind : d.kind = .ifStatement)
      (test : Evaluates fs cond ev) (branch : Runs fs (id + 1 + cond.size) body ev' o) :
      Runs fs id (.node d (cond :: body :: rest)) (ev ++ ev') o
  | ifSkip {fs : Frames} {id : Nat} {d : Node} {cond body : Tree} {ev : List Event}
      (hkind : d.kind = .ifStatement) (test : Evaluates fs cond ev) :
      Runs fs id (.node d [cond, body]) ev .ended
  | ifElse {fs : Frames} {id : Nat} {d e : Node} {cond body other : Tree}
      {ev ev' : List Event} {o : Outcome} (hkind : d.kind = .ifStatement)
      (test : Evaluates fs cond ev)
      (branch : Runs (after fs (id + 1 + cond.size) body) (id + 1 + cond.size + body.size + 1)
        other ev' o) :
      Runs fs id (.node d [cond, body, .node e [other]]) (ev ++ ev') o
  | whileLoop {fs : Frames} {id : Nat} {d : Node} {cond body : Tree} {ev : List Event}
      {o : Outcome} (hkind : d.kind = .whileStatement)
      (loop : Loops fs cond (id + 1 + cond.size) body [] ev o) :
      Runs fs id (.node d [cond, body]) ev o
  | forLoop {fs : Frames} {id : Nat} {d : Node} {init cond step body : Tree}
      {ev ev' : List Event} {o : Outcome} (hkind : d.kind = .forStatement)
      (start : Initializes ([] :: fs) (id + 1) init ev)
      (loop : Loops (afterInit ([] :: fs) (id + 1) init) cond
        (id + 1 + init.size + cond.size + step.size) body [step] ev' o) :
      Runs fs id (.node d [init, cond, step, body]) (ev ++ ev') o

/-- The statements of a list, the first at a node, may be executed one after another. -/
inductive RunsAll : Frames → Nat → List Tree → List Event → Outcome → Prop
  | nil {fs : Frames} {id : Nat} : RunsAll fs id [] [] .ended
  | cons {fs : Frames} {id : Nat} {t : Tree} {ts : List Tree} {ev ev' : List Event} {o : Outcome}
      (here : Runs fs id t ev .ended) (rest : RunsAll (after fs id t) (id + t.size) ts ev' o) :
      RunsAll fs id (t :: ts) (ev ++ ev') o
  | leave {fs : Frames} {id : Nat} {t : Tree} {ts : List Tree} {ev : List Event} {o : Outcome}
      (here : Runs fs id t ev o) (left : o ≠ .ended) : RunsAll fs id (t :: ts) ev o

/-- A loop with a body at a node, which ends each round with the expressions of a list, may be
executed. -/
inductive Loops : Frames → Tree → Nat → Tree → List Tree → List Event → Outcome → Prop
  | exit {fs : Frames} {cond : Tree} {id : Nat} {body : Tree} {steps : List Tree}
      {ev : List Event} (mayFail : ¬AlwaysTrue cond) (test : Evaluates fs cond ev) :
      Loops fs cond id body steps ev .ended
  | leave {fs : Frames} {cond : Tree} {id : Nat} {body : Tree} {steps : List Tree}
      {ev ev' : List Event} {o : Outcome} (test : Evaluates fs cond ev)
      (here : Runs fs id body ev' o) (left : o ≠ .ended) :
      Loops fs cond id body steps (ev ++ ev') o
  | again {fs : Frames} {cond : Tree} {id : Nat} {body : Tree} {steps : List Tree}
      {ev ev' ev'' ev''' : List Event} {o : Outcome} (test : Evaluates fs cond ev)
      (here : Runs fs id body ev' .ended) (next : EvaluatesAll (after fs id body) steps ev'')
      (rest : Loops fs cond id body steps ev''' o) :
      Loops fs cond id body steps (ev ++ (ev' ++ (ev'' ++ ev'''))) o

end

/-! ## The runs of each form -/

section Forms

variable {fs : Frames} {id : Nat} {d e : Node} {cs : List Tree}
  {t cond body other init step : Tree} {ev : List Event} {o : Outcome}

/-- A run of a block is one of its statements, in a frame of their own. -/
theorem runs_block (hkind : d.kind = .block) : Runs fs id (.node d cs) ev o ↔
    (ev = [] ∧ o = .stopped) ∨ RunsAll ([] :: fs) (id + 1) cs ev o := by
  constructor
  · intro h
    cases h <;> simp_all
  · intro h
    rcases h with ⟨rfl, rfl⟩ | h
    · exact .stop fs id _
    · exact .block hkind h

/-- A run of a declaration is one of its declarators. -/
theorem runs_declaration (hkind : d.kind = .localDeclaration) : Runs fs id (.node d [t]) ev o ↔
    (ev = [] ∧ o = .stopped) ∨ (o = .ended ∧ Declares fs (declarators (id + 1) t) ev) := by
  constructor
  · intro h
    cases h <;> simp_all
  · intro h
    rcases h with ⟨rfl, rfl⟩ | ⟨rfl, h⟩
    · exact .stop fs id _
    · exact .declaration hkind h

/-- A run of an expression statement evaluates the expression. -/
theorem runs_expression (hkind : d.kind = .expressionStatement) : Runs fs id (.node d [t]) ev o ↔
    (ev = [] ∧ o = .stopped) ∨ (o = .ended ∧ Evaluates fs t ev) := by
  constructor
  · intro h
    cases h <;> simp_all
  · intro h
    rcases h with ⟨rfl, rfl⟩ | ⟨rfl, h⟩
    · exact .stop fs id _
    · exact .expression hkind h

/-- In a run of an empty statement nothing happens. -/
theorem runs_empty (hkind : d.kind = .emptyStatement) : Runs fs id (.node d cs) ev o ↔
    ev = [] ∧ (o = .stopped ∨ o = .ended) := by
  constructor
  · intro h
    cases h <;> simp_all
  · intro h
    rcases h with ⟨rfl, rfl | rfl⟩
    · exact .stop fs id _
    · exact .empty hkind

/-- In a run of a return without a value nothing happens. -/
theorem runs_returnNothing (hkind : d.kind = .returnStatement) : Runs fs id (.node d []) ev o ↔
    ev = [] ∧ (o = .stopped ∨ o = .returned) := by
  constructor
  · intro h
    cases h <;> simp_all
  · intro h
    rcases h with ⟨rfl, rfl | rfl⟩
    · exact .stop fs id _
    · exact .returnNothing hkind

/-- A run of a return evaluates the value. -/
theorem runs_returnValue (hkind : d.kind = .returnStatement) : Runs fs id (.node d [t]) ev o ↔
    (ev = [] ∧ o = .stopped) ∨ (o = .returned ∧ Evaluates fs t ev) := by
  constructor
  · intro h
    cases h <;> simp_all
  · intro h
    rcases h with ⟨rfl, rfl⟩ | ⟨rfl, h⟩
    · exact .stop fs id _
    · exact .returnValue hkind h

/-- A run of an `if` evaluates the condition, and then goes through the branch or past it. -/
theorem runs_ifThen (hkind : d.kind = .ifStatement) : Runs fs id (.node d [cond, body]) ev o ↔
    (ev = [] ∧ o = .stopped) ∨ ∃ ev₁ ev₂, ev = ev₁ ++ ev₂ ∧ Evaluates fs cond ev₁ ∧
      ((ev₂ = [] ∧ o = .ended) ∨ Runs fs (id + 1 + cond.size) body ev₂ o) := by
  constructor
  · intro h
    cases h with
    | stop => exact .inl ⟨rfl, rfl⟩
    | ifThen _ test branch => exact .inr ⟨_, _, rfl, test, .inr branch⟩
    | ifSkip _ test => exact .inr ⟨_, [], (List.append_nil _).symm, test, .inl ⟨rfl, rfl⟩⟩
    | _ => simp_all
  · intro h
    rcases h with ⟨rfl, rfl⟩ | ⟨ev₁, ev₂, rfl, test, ⟨rfl, rfl⟩ | branch⟩
    · exact .stop fs id _
    · rw [List.append_nil]
      exact .ifSkip hkind test
    · exact .ifThen hkind test branch

/-- A run of an `if` with two branches evaluates the condition, and then goes through one of
them. -/
theorem runs_ifElse (hkind : d.kind = .ifStatement) :
    Runs fs id (.node d [cond, body, .node e [other]]) ev o ↔
      (ev = [] ∧ o = .stopped) ∨ ∃ ev₁ ev₂, ev = ev₁ ++ ev₂ ∧ Evaluates fs cond ev₁ ∧
        (Runs fs (id + 1 + cond.size) body ev₂ o ∨
          Runs (after fs (id + 1 + cond.size) body) (id + 1 + cond.size + body.size + 1) other
            ev₂ o) := by
  constructor
  · intro h
    cases h with
    | stop => exact .inl ⟨rfl, rfl⟩
    | ifThen _ test branch => exact .inr ⟨_, _, rfl, test, .inl branch⟩
    | ifElse _ test branch => exact .inr ⟨_, _, rfl, test, .inr branch⟩
    | _ => simp_all
  · intro h
    rcases h with ⟨rfl, rfl⟩ | ⟨ev₁, ev₂, rfl, test, branch | branch⟩
    · exact .stop fs id _
    · exact .ifThen hkind test branch
    · exact .ifElse hkind test branch

/-- A run of a `while` goes round the loop. -/
theorem runs_while (hkind : d.kind = .whileStatement) : Runs fs id (.node d [cond, body]) ev o ↔
    (ev = [] ∧ o = .stopped) ∨ Loops fs cond (id + 1 + cond.size) body [] ev o := by
  constructor
  · intro h
    cases h with
    | stop => exact .inl ⟨rfl, rfl⟩
    | whileLoop _ loop => exact .inr loop
    | _ => simp_all
  · intro h
    rcases h with ⟨rfl, rfl⟩ | loop
    · exact .stop fs id _
    · exact .whileLoop hkind loop

/-- A run of a `for` goes through the initializer and then round the loop. -/
theorem runs_for (hkind : d.kind = .forStatement) :
    Runs fs id (.node d [init, cond, step, body]) ev o ↔
      (ev = [] ∧ o = .stopped) ∨ ∃ ev₁ ev₂, ev = ev₁ ++ ev₂ ∧
        Initializes ([] :: fs) (id + 1) init ev₁ ∧
          Loops (afterInit ([] :: fs) (id + 1) init) cond
            (id + 1 + init.size + cond.size + step.size) body [step] ev₂ o := by
  constructor
  · intro h
    cases h with
    | stop => exact .inl ⟨rfl, rfl⟩
    | forLoop _ start loop => exact .inr ⟨_, _, rfl, start, loop⟩
    | _ => simp_all
  · intro h
    rcases h with ⟨rfl, rfl⟩ | ⟨ev₁, ev₂, rfl, start, loop⟩
    · exact .stop fs id _
    · exact .forLoop hkind start loop

end Forms

/-- Induction over the rounds of a loop. -/
theorem Loops.inductionOn {fs : Frames} {cond : Tree} {id : Nat} {body : Tree} {steps : List Tree}
    {motive : List Event → Outcome → Prop}
    (exit : ∀ {ev}, ¬AlwaysTrue cond → Evaluates fs cond ev → motive ev .ended)
    (leave : ∀ {ev ev' o}, Evaluates fs cond ev → Runs fs id body ev' o → o ≠ .ended →
      motive (ev ++ ev') o)
    (again : ∀ {ev ev' ev'' ev''' o}, Evaluates fs cond ev → Runs fs id body ev' .ended →
      EvaluatesAll (after fs id body) steps ev'' → motive ev''' o →
      motive (ev ++ (ev' ++ (ev'' ++ ev'''))) o) :
    ∀ {ev o}, Loops fs cond id body steps ev o → motive ev o
  | _, _, .exit mayFail test => exit mayFail test
  | _, _, .leave test here left => leave test here left
  | _, _, .again test here next rest => again test here next (Loops.inductionOn exit leave again rest)

end SharpMutants.Execution
