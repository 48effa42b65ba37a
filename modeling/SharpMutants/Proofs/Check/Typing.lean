import Mathlib.Data.List.Forall2
import SharpMutants.Check.Checker
import SharpMutants.Dataflow.Variables

/-!
# Typing rules

What makes a program well typed, told apart from the way in which a check goes about it.
Numbers widen (`Converts`), an operator allows certain pairs of operands (`Allows`), and an
expression has a type in a context of declarations (`HasType`).  A statement is well typed if
its expressions are, and if its conditions, initializers and results have the types that they
must have (`WellTyped`); a class is, if its initializers and the bodies of its methods are
(`ClassTyped`).

Every rule gives one of the types of the language: there is none for an expression that is
found wrong (`HasType.ne_unknown`).
-/

namespace SharpMutants.Typing

/-! ## Types -/

/-- Implicit conversion. -/
inductive Converts : Ty → Ty → Prop
  | refl (a : Ty) : Converts a a
  | intLong : Converts .int .long
  | intDouble : Converts .int .double
  | longDouble : Converts .long .double

/-- The types of numbers. -/
inductive Number : Ty → Prop
  | int : Number .int
  | long : Number .long
  | double : Number .double

/-- The least type of numbers that two types convert to. -/
structure Widest (a b c : Ty) : Prop where
  number : Number c
  left : Converts a c
  right : Converts b c
  least : ∀ n, Number n → Converts a n → Converts b n → Converts c n

/-- An operator allows operands of two types, and the result has a third. -/
inductive Allows : BinaryOp → Ty → Ty → Ty → Prop
  | concat {a b : Ty} (text : a = .string ∨ b = .string) (left : a ≠ .void) (right : b ≠ .void) :
      Allows .add a b .string
  | arithmetic {op : BinaryOp} {a b c : Ty} (hop : op ∈ [.add, .sub, .mul, .div, .rem])
      (left : Number a) (right : Number b) (result : Widest a b c) : Allows op a b c
  | order {op : BinaryOp} {a b : Ty} (hop : op ∈ [.lt, .le, .gt, .ge]) (left : Number a)
      (right : Number b) : Allows op a b .bool
  | sameNumber {op : BinaryOp} {a b : Ty} (hop : op ∈ [.eq, .ne]) (left : Number a)
      (right : Number b) : Allows op a b .bool
  | sameValue {op : BinaryOp} {a : Ty} (hop : op ∈ [.eq, .ne]) (value : a ≠ .void) :
      Allows op a a .bool
  | logical {op : BinaryOp} (hop : op ∈ [.and, .or]) : Allows op .bool .bool .bool

/-! ## Contexts -/

/-- A method that may be called. -/
structure Method where
  name : String
  parameters : List TypeName
  result : TypeName

/-- What is declared at a place.  The locals are those of the open scopes, innermost scope
first, and in a scope the latest first. -/
structure Context where
  fields : List (String × TypeName)
  methods : List Method
  parameters : List (String × TypeName)
  result : TypeName
  locals : List (List (String × TypeName))

/-- The variables that declarators of one type declare. -/
def ofType (type : TypeName) (ts : List Tree) : List (String × TypeName) :=
  (Check.declaratorNames ts).map fun name => (name, type)

/-- The variables that a declaration declares. -/
def declared (t : Tree) : List (String × TypeName) :=
  match t.kind with
  | .variableDeclaration type => ofType type t.children
  | _ => []

/-- The variables that a statement adds to the scope in which it stands. -/
def added : Tree → List (String × TypeName)
  | .node d cs =>
    match d.kind, cs with
    | .localDeclaration, t :: _ => declared t
    | .ifStatement, _ :: body :: rest =>
      added body ++
        match rest with
        | .node _ (other :: _) :: _ => added other
        | _ => []
    | .whileStatement, _ :: body :: _ => added body
    | _, _ => []

namespace Context

/-- A name is that of a variable of a type: of the innermost local of the name, else of a
parameter, else of a field. -/
inductive Resolves (Γ : Context) (name : String) (type : TypeName) : Prop
  | asLocal (found : Γ.locals.flatten.lookup name = some type)
  | asParameter (nowhere : name ∉ Γ.locals.flatten.map Prod.fst)
      (found : (name, type) ∈ Γ.parameters)
  | asField (nowhere : name ∉ Γ.locals.flatten.map Prod.fst)
      (noParameter : name ∉ Γ.parameters.map Prod.fst) (found : (name, type) ∈ Γ.fields)

/-- A call with arguments of some types has a result: one of a method with as many parameters,
to which the arguments convert, or one that writes values to the console. -/
inductive Calls (Γ : Context) (callee : String) (types : List Ty) : Ty → Prop
  | method {m : Method} (found : m ∈ Γ.methods) (name : m.name = callee)
      (converts : List.Forall₂ Converts types (m.parameters.map Ty.ofName)) :
      Calls Γ callee types (Ty.ofName m.result)
  | writeLine (name : callee = "Console.WriteLine") (count : types.length ≤ 1)
      (values : .void ∉ types) : Calls Γ callee types .void
  | write (name : callee = "Console.Write") (count : types.length = 1) (values : .void ∉ types) :
      Calls Γ callee types .void

/-- A scope is opened. -/
def enter (Γ : Context) : Context := { Γ with locals := [] :: Γ.locals }

/-- Variables join the innermost scope one after another. -/
def declare (Γ : Context) (vs : List (String × TypeName)) : Context :=
  match Γ.locals with
  | [] => Γ
  | scope :: outer => { Γ with locals := (vs.reverse ++ scope) :: outer }

/-- The context behind a statement. -/
def after (Γ : Context) (t : Tree) : Context := Γ.declare (added t)

/-- The context behind the statements of a list. -/
def afterAll (Γ : Context) (ts : List Tree) : Context := ts.foldl after Γ

end Context

/-! ## Expressions -/

/-- An expression has a type. -/
inductive HasType (Γ : Context) : Tree → Ty → Prop
  | int {d : Node} {value : Literal} {n : Nat} (hkind : d.kind = .literal value)
      (hvalue : value.kind = .int) (number : Decimal.natural? value.text.toList = some n)
      (bound : n < 2147483648) : HasType Γ (.node d []) .int
  | long {d : Node} {value : Literal} {n : Nat} (hkind : d.kind = .literal value)
      (hvalue : value.kind = .int) (number : Decimal.natural? value.text.toList = some n)
      (large : 2147483648 ≤ n) (bound : n < 18446744073709551616) : HasType Γ (.node d []) .long
  | double {d : Node} {value : Literal} (hkind : d.kind = .literal value)
      (hvalue : value.kind = .double) : HasType Γ (.node d []) .double
  | bool {d : Node} {value : Literal} (hkind : d.kind = .literal value)
      (hvalue : value.kind = .bool) : HasType Γ (.node d []) .bool
  | string {d : Node} {value : Literal} (hkind : d.kind = .literal value)
      (hvalue : value.kind = .string) : HasType Γ (.node d []) .string
  | identifier {d : Node} {name : String} {type : TypeName} (hkind : d.kind = .identifier name)
      (found : Γ.Resolves name type) : HasType Γ (.node d []) (Ty.ofName type)
  | parenthesized {d : Node} {t : Tree} {a : Ty} (hkind : d.kind = .parenthesized)
      (inner : HasType Γ t a) : HasType Γ (.node d [t]) a
  | binary {d : Node} {op : BinaryOp} {l r : Tree} {a b c : Ty} (hkind : d.kind = .binary op)
      (left : HasType Γ l a) (right : HasType Γ r b) (allowed : Allows op a b c) :
      HasType Γ (.node d [l, r]) c
  /-- The least number of its type is spelled with a minus before a number that is not. -/
  | least {d e : Node} {value : Literal} (hkind : d.kind = .prefixUnary .negate)
      (hvalue : e.kind = .literal value)
      (number : Decimal.natural? value.text.toList = some 2147483648)
      (operand : HasType Γ (.node e []) .long) : HasType Γ (.node d [.node e []]) .int
  | not {d : Node} {t : Tree} (hkind : d.kind = .prefixUnary .not)
      (operand : HasType Γ t .bool) : HasType Γ (.node d [t]) .bool
  | sign {d : Node} {op : UnaryOp} {t : Tree} {a : Ty} (hkind : d.kind = .prefixUnary op)
      (hop : op ∈ [.negate, .plus]) (operand : HasType Γ t a) (number : Number a) :
      HasType Γ (.node d [t]) a
  | step {d : Node} {op : UnaryOp} {t : Tree} {name : String} {a : Ty}
      (hkind : d.kind = .prefixUnary op ∨ d.kind = .postfixUnary op)
      (hop : op ∈ [.increment, .decrement]) (place : Variables.nameOf? t = some name)
      (operand : HasType Γ t a) (number : Number a) : HasType Γ (.node d [t]) a
  | assignment {d : Node} {target value : Tree} {name : String} {a b : Ty}
      (hkind : d.kind = .assignment .assign) (place : Variables.nameOf? target = some name)
      (wanted : HasType Γ target a) (given : HasType Γ value b) (converts : Converts b a) :
      HasType Γ (.node d [target, value]) a
  | compound {d : Node} {op : AssignOp} {arithmetic : BinaryOp} {target value : Tree}
      {name : String} {a b c : Ty} (hkind : d.kind = .assignment op)
      (hop : op.binaryOp? = some arithmetic) (place : Variables.nameOf? target = some name)
      (current : HasType Γ target a) (given : HasType Γ value b)
      (allowed : Allows arithmetic a b c) (converts : Converts c a) :
      HasType Γ (.node d [target, value]) a
  | invocation {d : Node} {callee : String} {args : List Tree} {types : List Ty} {a : Ty}
      (hkind : d.kind = .invocation callee) (given : List.Forall₂ (HasType Γ) args types)
      (resolved : Γ.Calls callee types a) : HasType Γ (.node d args) a

/-- A number has a known type. -/
theorem Number.ne_unknown {a : Ty} (h : Number a) : a ≠ .unknown := by
  cases h <;> decide

/-- The types that are named are known. -/
theorem ofName_ne_unknown (type : TypeName) : Ty.ofName type ≠ .unknown := by
  cases type <;> decide

/-- What an operator allows has a known type. -/
theorem Allows.ne_unknown {op : BinaryOp} {a b c : Ty} (h : Allows op a b c) : c ≠ .unknown := by
  cases h with
  | arithmetic _ _ _ result => exact result.number.ne_unknown
  | _ => decide

/-- What is called has a known type. -/
theorem Context.Calls.ne_unknown {Γ : Context} {callee : String} {types : List Ty} {a : Ty}
    (h : Γ.Calls callee types a) : a ≠ .unknown := by
  cases h with
  | method => exact ofName_ne_unknown _
  | _ => decide

/-- An expression that has a type has one of the language. -/
theorem HasType.ne_unknown {Γ : Context} {t : Tree} {a : Ty} (h : HasType Γ t a) :
    a ≠ .unknown := by
  induction t using Tree.inductionOn generalizing a with
  | node d cs ih =>
      cases h with
      | identifier => exact ofName_ne_unknown _
      | parenthesized _ inner => exact ih _ List.mem_cons_self inner
      | binary _ _ _ allowed => exact allowed.ne_unknown
      | sign _ _ _ number => exact number.ne_unknown
      | step _ _ _ _ number => exact number.ne_unknown
      | assignment _ _ wanted => exact ih _ List.mem_cons_self wanted
      | compound _ _ _ current => exact ih _ List.mem_cons_self current
      | invocation _ _ resolved => exact resolved.ne_unknown
      | _ => decide

/-- Expressions that have types by the rules have known ones. -/
theorem HasType.unknown_not_mem {Γ : Context} {ts : List Tree} {types : List Ty}
    (h : List.Forall₂ (HasType Γ) ts types) : .unknown ∉ types := by
  induction h with
  | nil => exact List.not_mem_nil
  | cons here _ ih => exact List.not_mem_cons_of_ne_of_not_mem here.ne_unknown.symm ih

/-! ## Statements -/

/-- The initializers of a declaration convert to its type.  A variable is declared behind its
own initializer. -/
def Declares (Γ : Context) (t : Tree) : Prop :=
  ∃ type, t.kind = .variableDeclaration type ∧
    ∀ before c behind, t.children = before ++ c :: behind → ∀ init ∈ c.children,
      ∃ a, HasType (Γ.declare (ofType type before)) init a ∧ Converts a (Ty.ofName type)

/-- The expressions that may stand as a statement: assignments, calls, `++` and `--`. -/
inductive Effect : Kind → Prop
  | assignment (op : AssignOp) : Effect (.assignment op)
  | call (callee : String) : Effect (.invocation callee)
  | prefixStep {op : UnaryOp} (hop : op ∈ [.increment, .decrement]) : Effect (.prefixUnary op)
  | postfixStep {op : UnaryOp} (hop : op ∈ [.increment, .decrement]) : Effect (.postfixUnary op)

/-- A statement is well typed. -/
inductive WellTyped : Context → Tree → Prop
  | block {Γ : Context} {d : Node} {cs : List Tree} (hkind : d.kind = .block)
      (parts : ∀ before t behind, cs = before ++ t :: behind →
        WellTyped (Γ.enter.afterAll before) t) : WellTyped Γ (.node d cs)
  | declaration {Γ : Context} {d : Node} {t : Tree} (hkind : d.kind = .localDeclaration)
      (part : Declares Γ t) : WellTyped Γ (.node d [t])
  | expression {Γ : Context} {d : Node} {t : Tree} {a : Ty} (hkind : d.kind = .expressionStatement)
      (effect : Effect t.kind) (part : HasType Γ t a) : WellTyped Γ (.node d [t])
  | empty {Γ : Context} {d : Node} (hkind : d.kind = .emptyStatement) : WellTyped Γ (.node d [])
  | returnNothing {Γ : Context} {d : Node} (hkind : d.kind = .returnStatement)
      (result : Γ.result = .void) : WellTyped Γ (.node d [])
  | returnValue {Γ : Context} {d : Node} {t : Tree} {a : Ty} (hkind : d.kind = .returnStatement)
      (result : Γ.result ≠ .void) (part : HasType Γ t a)
      (converts : Converts a (Ty.ofName Γ.result)) : WellTyped Γ (.node d [t])
  | ifThen {Γ : Context} {d : Node} {cond body : Tree} (hkind : d.kind = .ifStatement)
      (test : HasType Γ cond .bool) (branch : WellTyped Γ body) : WellTyped Γ (.node d [cond, body])
  | ifElse {Γ : Context} {d e : Node} {cond body other : Tree} (hkind : d.kind = .ifStatement)
      (test : HasType Γ cond .bool) (branch : WellTyped Γ body)
      (otherwise : WellTyped (Γ.after body) other) :
      WellTyped Γ (.node d [cond, body, .node e [other]])
  | whileLoop {Γ : Context} {d : Node} {cond body : Tree} (hkind : d.kind = .whileStatement)
      (test : HasType Γ cond .bool) (round : WellTyped Γ body) : WellTyped Γ (.node d [cond, body])
  | forLoop {Γ : Context} {d : Node} {init cond step body : Tree} {a : Ty}
      (hkind : d.kind = .forStatement)
      (start : Declares Γ.enter init ∨ ∃ b, HasType Γ.enter init b)
      (test : HasType (Γ.enter.declare (declared init)) cond .bool)
      (round : WellTyped (Γ.enter.declare (declared init)) body)
      (next : HasType ((Γ.enter.declare (declared init)).after body) step a) :
      WellTyped Γ (.node d [init, cond, step, body])

/-! ## Classes -/

/-- The fields that members of a class declare. -/
def fieldsOf (members : List Tree) : List (String × TypeName) :=
  members.flatMap fun t =>
    match t.kind, t.children with
    | .fieldDecl _, declaration :: _ => declared declaration
    | _, _ => []

/-- The parameters among the children of a method. -/
def parametersOf (children : List Tree) : List (String × TypeName) :=
  children.filterMap fun t =>
    match t.kind with
    | .parameter name type => some (name, type)
    | _ => none

/-- The methods among the members of a class. -/
def methodsOf (members : List Tree) : List Method :=
  members.filterMap fun t =>
    match t.kind with
    | .methodDecl name _ result => some ⟨name, (parametersOf t.children).map Prod.snd, result⟩
    | _ => none

/-- The members of a class are well typed: the initializers of the fields convert to their
types, and the body of a method is well typed under its parameters. -/
structure ClassTyped (members : List Tree) : Prop where
  initializers : ∀ t ∈ members, ∀ ms, t.kind = .fieldDecl ms → ∀ declaration ∈ t.children,
    ∀ type, declaration.kind = .variableDeclaration type → ∀ c ∈ declaration.children,
      ∀ init ∈ c.children, ∃ a,
        HasType ⟨fieldsOf members, methodsOf members, [], .void, []⟩ init a ∧
          Converts a (Ty.ofName type)
  bodies : ∀ t ∈ members, ∀ name ms result, t.kind = .methodDecl name ms result →
    ∀ body, t.children.getLast? = some body →
      WellTyped ⟨fieldsOf members, methodsOf members, parametersOf t.children, result, []⟩ body

end SharpMutants.Typing
