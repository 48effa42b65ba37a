import SharpMutants.Decimal
import SharpMutants.Syntax.Document
import SharpMutants.Check.Scope

/-!
# The semantic check

`check` resolves the names of a document, gives every expression a type, and
follows definite assignment and reachability through every method.  It reports
in the order in which it meets things: for each class the clashes among its
members, then the initializers of its fields, then its methods.

A condition that is the literal `true`, in parentheses or not, is the only one
whose outcome the check knows.
-/

namespace SharpMutants.Check

/-- The expression inside any number of parentheses. -/
def unparenthesize : Tree → Tree
  | .node d cs =>
    match d.kind, cs with
    | .parenthesized, inner :: _ => unparenthesize inner
    | _, _ => .node d cs

/-- The literal `true`, in parentheses or not. -/
def isTrueLiteral (t : Tree) : Bool :=
  match (unparenthesize t).kind with
  | .literal value => value.kind == .bool && value.text == "true"
  | _ => false

/-- The first number that takes more than 64 bits. -/
def wordLimit : Nat := 18446744073709551616

/-- The first number that is no `int`: its negation is the least `int`. -/
def intLimit : Nat := 2147483648

/-- The value of an integer literal, unless it takes more than 64 bits. -/
def integerValue? (text : String) : Option Nat :=
  (Decimal.natural? text.toList).filter (· < wordLimit)

/-- The one literal that is an `int` only under a minus. -/
def isMinimumMagnitude (t : Tree) : Bool :=
  match t.kind with
  | .literal value => value.kind == .int && integerValue? value.text == some intLimit
  | _ => false

/-- An integer literal of value zero, in parentheses or not. -/
def isZeroLiteral (t : Tree) : Bool :=
  match (unparenthesize t).kind with
  | .literal value => value.integer? == some 0
  | _ => false

/-- The type of an integer literal. -/
def integerLiteral (s : State) (text : String) (site : Span) : Ty × State :=
  match integerValue? text with
  | some n => (if n < intLimit then .int else .long, s)
  | none => (.unknown, s.report .integerTooLarge site)

/-- The type of a binary operation on operands of two types. -/
def binaryOperation (s : State) (op : BinaryOp) (l r : Ty) (site : Span) (right : Tree) :
    Ty × State :=
  match Ty.binary? op l r with
  | none => (.unknown, s.report (.binaryOperands op l r) site)
  | some ty =>
    let divides := op == .div || op == .rem
    (ty, s.reportIf (divides && ty == .int && isZeroLiteral right) .zeroDivisor site)

/-- The type of `++` or `--` on a variable. -/
def stepVariable (env : Env) (s : State) (op : UnaryOp) (name : String) (target operand : Span) :
    Ty × State :=
  let (ty, s) := s.read env name target
  let (_, s) := s.write env name target
  if !ty.isNumeric && ty != .unknown then
    (.unknown, s.report (.unaryOperand op ty) operand)
  else (ty, s)

/-- The type of a unary operation that changes no variable. -/
def unaryOperation (s : State) (op : UnaryOp) (ty : Ty) (operand : Span) : Ty × State :=
  let fits := if op == .not then ty == .bool else ty.isNumeric
  if fits || ty == .unknown then (ty, s)
  else (.unknown, s.report (.unaryOperand op ty) operand)

/-- The part of a dotted name before its last point, and the part after it. -/
def splitLast? (name : Text) : Option (Text × Text) :=
  let last := (name.reverse.takeWhile (· != '.')).reverse
  if last.length < name.length then some (name.take (name.length - last.length - 1), last)
  else none

/-- A call of a member of `Console`. -/
def consoleCall (s : State) (member : String) (site : Span) (args : List (Span × Ty)) :
    Ty × State :=
  let report := fun (fits : Bool) =>
    if !fits then (Ty.void, s.report (.argumentCount member args.length) site)
    else
      (Ty.void, args.zipIdx.foldl
        (fun s ((span, ty), i) => s.reportIf (ty == .void) (.voidArgument (i + 1)) span) s)
  if member == "WriteLine" then report (args.length ≤ 1)
  else if member == "Write" then report (args.length == 1)
  else (.unknown, s.report (.unknownConsoleMember member) site)

/-- Whether arguments convert to the parameters, as far as both go. -/
def accepts (signature : Signature) (args : List (Span × Ty)) : Bool :=
  (signature.parameters.zip args).all fun (p, _, a) => a.convertsTo p

/-- A call of a method of the class: of those with as many parameters as there are arguments,
the first that accepts them, else the first. -/
def methodCall (env : Env) (s : State) (callee : String) (site : Span)
    (args : List (Span × Ty)) : Ty × State :=
  let overloads := (env.methods.filter fun m => m.1 == callee).map Prod.snd
  if overloads.isEmpty then (.unknown, s.report (.unknownName callee) site)
  else
    match overloads.filter fun m => m.parameters.length == args.length with
    | [] => (.unknown, s.report (.argumentCount callee args.length) site)
    | first :: others =>
      match (first :: others).find? fun m => accepts m args with
      | some m => (m.result, s)
      | none =>
        (first.result, (first.parameters.zip args).zipIdx.foldl
          (fun s ((p, span, a), i) =>
            s.reportIf (!a.convertsTo p) (.argument (i + 1) a p) span) s)

/-- A call, once its arguments have types. -/
def call (env : Env) (s : State) (callee : String) (site : Span) (args : List (Span × Ty)) :
    Ty × State :=
  match splitLast? callee.toList with
  | none => methodCall env s callee site args
  | some (receiver, member) =>
    if receiver == "Console".toList then consoleCall s (String.ofList member) site args
    else
      (.unknown,
        s.report (.unknownName (String.ofList (callee.toList.takeWhile (· != '.')))) site)

mutual

/-- The type of an expression. -/
def expression (env : Env) (s : State) : Tree → Ty × State
  | .node d cs =>
    match d.kind, cs with
    | .literal value, _ =>
      match value.kind with
      | .int => integerLiteral s value.text d.span
      | .double => (.double, s)
      | .bool => (.bool, s)
      | .string => (.string, s)
    | .identifier name, _ => s.read env name d.span
    | .parenthesized, inner :: _ => expression env s inner
    | .binary op, [left, right] =>
      let (l, s) := expression env s left
      let flow := s.flow
      let (r, s) := expression env s right
      let s := if op == .and || op == .or then { s with flow := flow } else s
      binaryOperation s op l r d.span right
    | .prefixUnary op, operand :: _ | .postfixUnary op, operand :: _ =>
      if op == .negate && isMinimumMagnitude operand then (.int, s)
      else if op.isStep then
        match (unparenthesize operand).kind with
        | .identifier name => stepVariable env s op name (unparenthesize operand).span operand.span
        | _ =>
          let (_, s) := expression env s operand
          (.unknown, s.report .steppedValue operand.span)
      else
        let (ty, s) := expression env s operand
        unaryOperation s op ty operand.span
    | .assignment op, [target, value] =>
      let place := unparenthesize target
      match place.kind with
      | .identifier name =>
        match op.binaryOp? with
        | none =>
          let (given, s) := expression env s value
          let (wanted, s) := s.write env name place.span
          (wanted, s.convert given wanted value.span)
        | some arithmetic =>
          let (current, s) := s.read env name place.span
          let (given, s) := expression env s value
          let (wanted, s) := s.write env name place.span
          let (result, s) := binaryOperation s arithmetic current given target.span value
          if arithmetic == .add && wanted == .string then (wanted, s)
          else (wanted, s.convert result wanted value.span)
      | _ =>
        let (_, s) := expression env s target
        let (_, s) := expression env s value
        (.unknown, s.report .assignedValue target.span)
    | .invocation callee, args =>
      let (types, s) := expressions env s args
      call env s callee d.span types
    | _, _ => (.unknown, s)

/-- The types of the expressions of a list, with their places. -/
def expressions (env : Env) (s : State) : List Tree → List (Span × Ty) × State
  | [] => ([], s)
  | e :: es =>
    let (ty, s) := expression env s e
    let (types, s) := expressions env s es
    ((e.span, ty) :: types, s)

end

/-- A condition has to be a truth value. -/
def condition (env : Env) (s : State) (t : Tree) : State :=
  let (ty, s) := expression env s t
  s.convert ty .bool t.span

/-- The declarators of a declaration, in order. -/
def declarators (env : Env) (type : Ty) (s : State) : List Tree → State
  | [] => s
  | t :: ts =>
    match t.kind with
    | .variableDeclarator name =>
      match t.children with
      | init :: _ =>
        let (given, s) := expression env s init
        let s := (s.convert given type init.span).declare env name type t.span true
        declarators env type { s with flow := s.flow.assign name } ts
      | [] =>
        let s := s.declare env name type t.span false
        declarators env type { s with flow := s.flow.unassign name } ts
    | _ => declarators env type s ts

/-- A declaration of variables. -/
def declaration (env : Env) (s : State) (t : Tree) : State :=
  match t.kind with
  | .variableDeclaration type => declarators env (Ty.ofName type) s t.children
  | _ => s

/-- The names of the declarators in a list. -/
def declaratorNames (ts : List Tree) : List String :=
  ts.filterMap fun t =>
    match t.kind with
    | .variableDeclarator name => some name
    | _ => none

/-- The names declared by the statements of a block themselves. -/
def declaredNames (statements : List Tree) : List String :=
  statements.flatMap fun t =>
    match t.kind, t.children with
    | .localDeclaration, declaration :: _ => declaratorNames declaration.children
    | _, _ => []

/-- An empty statement as a body is suspicious. -/
def warnEmptyBody (s : State) (body : Tree) : State :=
  s.reportIf (body.kind == .emptyStatement) .emptyBody body.span

/-- The expressions that do something when they stand as a statement. -/
def isEffect : Kind → Bool
  | .assignment _ | .invocation _ => true
  | .prefixUnary op | .postfixUnary op => op.isStep
  | _ => false

/-- An expression as a statement. -/
def expressionStatement (env : Env) (s : State) (t : Tree) : State :=
  (expression env (s.reportIf (!isEffect t.kind) .idleExpression t.span) t).2

/-- The initializer of a loop. -/
def loopInit (env : Env) (s : State) (t : Tree) : State :=
  match t.kind with
  | .variableDeclaration _ => declaration env s t
  | _ => (expression env s t).2

/-- The flow after a loop, from the flow past its condition. -/
def loopExit (cond : Tree) (flow : Flow) : Flow := if isTrueLiteral cond then flow.cut else flow

/-- A return at a place, with its value if it has one. -/
def returnStatement (env : Env) (s : State) (site : Span) : List Tree → State
  | [] =>
    let s := s.reportIf (env.result != .void) (.valueMissing env.result) site
    { s with flow := s.flow.cut }
  | value :: _ =>
    let (ty, s) := expression env s value
    let s :=
      if env.result == .void then s.report (.valueReturned env.method) site
      else s.convert ty env.result value.span
    { s with flow := s.flow.cut }

mutual

/-- A statement.  The flow of the state goes in before it and comes out behind it. -/
def statement (env : Env) (s : State) : Tree → State
  | .node d cs =>
    match d.kind, cs with
    | .block, body => (statements env false (s.openScope (declaredNames body)) body).closeScope
    | .localDeclaration, t :: _ => declaration env s t
    | .expressionStatement, t :: _ => expressionStatement env s t
    | .ifStatement, cond :: thenBranch :: rest =>
      let s := warnEmptyBody (condition env s cond) thenBranch
      let flow := s.flow
      let s := statement env s thenBranch
      let thenFlow := s.flow
      let s := { s with flow := flow }
      match rest with
      | .node _ (branch :: _) :: _ =>
        let s := statement env s branch
        { s with flow := thenFlow.join s.flow }
      | _ => { s with flow := thenFlow.join s.flow }
    | .whileStatement, cond :: body :: _ =>
      let s := warnEmptyBody (condition env s cond) body
      let flow := s.flow
      let s := statement env s body
      { s with flow := loopExit cond flow }
    | .forStatement, [init, cond, step, body] =>
      let s := loopInit env (s.openScope []) init
      let s := warnEmptyBody (condition env s cond) body
      let flow := s.flow
      let s := statement env s body
      let s := if s.flow.reachable then s else { s with flow := flow }
      let (_, s) := expression env s step
      { s.closeScope with flow := loopExit cond flow }
    | .returnStatement, value => returnStatement env s d.span value
    | _, _ => s

/-- Statements in a row.  The first one that cannot be reached is reported, unless it is
empty or one has been reported already. -/
def statements (env : Env) (warned : Bool) (s : State) : List Tree → State
  | [] => s
  | t :: ts =>
    let dead := !s.flow.reachable && !warned && t.kind != .emptyStatement
    let s := statement env (s.reportIf dead .unreachableCode t.span) t
    statements env (warned || dead) s ts

end

/-- The body of a method, whatever its kind, is checked as a block. -/
def body (env : Env) (s : State) (t : Tree) : State :=
  (statements env false (s.openScope (declaredNames t.children)) t.children).closeScope

/-- The parameters of a method, with a report for each name that is taken. -/
def parameters (s : State) (known : List (String × Ty)) : List Tree → List (String × Ty) × State
  | [] => (known, s)
  | t :: ts =>
    match t.kind with
    | .parameter name type =>
      let s := s.reportIf (typeIn? known name).isSome (.duplicateParameter name) t.span
      parameters s ((name, Ty.ofName type) :: known) ts
    | _ => parameters s known ts

/-- The members of a class that a check works on. -/
structure Members where
  fields : List (String × Ty)
  methods : List (String × Signature)
  initializers : List (Tree × Ty)

/-- A declarator of a field. -/
def fieldDeclarator (className : String) (type : Ty) (m : Members) (s : State) (t : Tree) :
    Members × State :=
  match t.kind with
  | .variableDeclarator name =>
    let s := s.reportIf (typeIn? m.fields name).isSome (.duplicateField className name) t.span
    let initializers := t.children.head?.toList.map fun init => (init, type)
    ({ m with
      fields := (name, type) :: m.fields
      initializers := m.initializers ++ initializers }, s)
  | _ => (m, s)

/-- The signature of a method declaration. -/
def signatureOf (result : TypeName) (children : List Tree) : Signature :=
  ⟨children.filterMap fun t =>
    match t.kind with
    | .parameter _ type => some (Ty.ofName type)
    | _ => none, Ty.ofName result⟩

/-- One member of a class. -/
def member (className : String) (m : Members) (s : State) (t : Tree) : Members × State :=
  match t.kind, t.children with
  | .fieldDecl _, declaration :: _ =>
    match declaration.kind with
    | .variableDeclaration type =>
      declaration.children.foldl
        (fun (m, s) d => fieldDeclarator className (Ty.ofName type) m s d) (m, s)
    | _ => (m, s)
  | .methodDecl name _ result, children =>
    let signature := signatureOf result children
    if m.methods.any fun e => e.1 == name && e.2.parameters == signature.parameters then
      (m, s.report (.duplicateMethod name) t.span)
    else ({ m with methods := m.methods ++ [(name, signature)] }, s)
  | _, _ => (m, s)

/-- A method of a class. -/
def method (m : Members) (s : State) (t : Tree) : State :=
  match t.kind, t.children.getLast? with
  | .methodDecl name _ result, some last =>
    let (known, s) := parameters s [] t.children.dropLast
    let env : Env := ⟨m.fields, m.methods, known, Ty.ofName result, name⟩
    let s := body env { s with flow := .entry } last
    s.reportIf (s.flow.reachable && result != .void) (.missingReturn name) t.span
  | _, _ => s

/-- The initializer of a field. -/
def initializer (m : Members) (s : State) (init : Tree) (type : Ty) : State :=
  let env : Env := ⟨m.fields, m.methods, [], .void, ""⟩
  let (given, s) := expression env { s with flow := .entry } init
  s.convert given type init.span

/-- A class. -/
def classDecl (s : State) (t : Tree) : State :=
  match t.kind with
  | .classDecl name _ =>
    let (m, s) := t.children.foldl (fun (m, s) c => member name m s c) (⟨[], [], []⟩, s)
    let s := m.initializers.foldl (fun s (init, type) => initializer m s init type) s
    t.children.foldl (method m) s
  | _ => s

/-- The findings about a tree, in the order in which they are made. -/
def findings (t : Tree) : List (Finding × Span) :=
  (t.subtrees.foldl classDecl .initial).findings.reverse

end SharpMutants.Check

namespace SharpMutants

/-- A judge of documents: the diagnostics that a document gets. -/
abbrev Compiler := Document → List Diagnostic

/-- The built-in judge. -/
def check : Compiler := fun d =>
  (Check.findings d.tree).map fun (finding, span) => Diagnostic.ofFinding d.source finding span

end SharpMutants
