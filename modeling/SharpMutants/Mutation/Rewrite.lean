import SharpMutants.Dataflow.MethodFlow

/-!
# Mutators

A mutator proposes rewrites of a node: other operators, a flipped step, nothing
in the place of a statement, or another variable.  Each mutator belongs to a
family, under which its mutants are counted.  `applies` says whether a node is a
matter for a mutator, and `rewrites` lists what the mutator makes of it.

A replaced binary operator may bind more loosely or tighter than the one it
replaces.  Its operands, and the expression itself, get parentheses wherever the
text would otherwise be grouped in another way.
-/

namespace SharpMutants

/-- The families of mutants. -/
inductive Family where
  | binaryOperator
  | unaryOperator
  | statementDeletion
  | identifierReplacement
deriving DecidableEq

namespace Family

/-- All families, in the order of reports. -/
def all : List Family :=
  [binaryOperator, unaryOperator, statementDeletion, identifierReplacement]

/-- The name of a family. -/
def name : Family → String
  | binaryOperator => "binary_operator"
  | unaryOperator => "unary_operator"
  | statementDeletion => "statement_deletion"
  | identifierReplacement => "identifier_replacement"

end Family

/-- The kinds of rewriting. -/
inductive Mutator where
  | binaryOperator
  | postfixStep
  | prefixOperator
  | statementDeletion
  | identifierReplacement
deriving DecidableEq

namespace Mutator

/-- All mutators, the one that is asked first in front. -/
def all : List Mutator :=
  [binaryOperator, postfixStep, prefixOperator, statementDeletion, identifierReplacement]

/-- The name of a mutator. -/
def name : Mutator → String
  | binaryOperator => "binary_operator"
  | postfixStep => "postfix_unary"
  | prefixOperator => "prefix_unary"
  | statementDeletion => "statement_deletion"
  | identifierReplacement => "identifier_replacement"

/-- The family of the mutants of a mutator. -/
def family : Mutator → Family
  | binaryOperator => .binaryOperator
  | postfixStep | prefixOperator => .unaryOperator
  | statementDeletion => .statementDeletion
  | identifierReplacement => .identifierReplacement

end Mutator

/-- A change to a node, and a summary of it. -/
structure Rewrite where
  graft : Graft
  summary : String

/-- Why a node cannot be mutated. -/
inductive MutationError where
  | inapplicable (mutator : Mutator) (node : Nat)
  | dataflow (error : DataflowError)

/-- The failure in words. -/
def MutationError.message : MutationError → String
  | inapplicable mutator node =>
    "handler `" ++ mutator.name ++ "` cannot mutate node #" ++ toString node
  | dataflow error => error.message

/-- The operators that stand in for each other, in the order in which they are tried. -/
def BinaryOp.interchangeable : List BinaryOp :=
  [.add, .sub, .mul, .div, .eq, .ne, .lt, .le, .gt, .ge]

/-- The step the other way. -/
def UnaryOp.flipped? : UnaryOp → Option UnaryOp
  | .increment => some .decrement
  | .decrement => some .increment
  | _ => none

namespace Rewrite

/-- The summary of a text in the place of another. -/
def swapSummary (old new : String) : String := "`" ++ old ++ "` -> `" ++ new ++ "`"

/-- An operand under an operator of a precedence: parenthesized if it binds more loosely, and
unless it comes first also if it binds as tightly. -/
def operand (precedence : Nat) (first : Bool) (t : Tree) : Graft :=
  if t.kind.precedence < precedence || (!first && t.kind.precedence == precedence) then
    .parenthesize (.kept t)
  else .kept t

/-- The operands under an operator of a precedence. -/
def operands (precedence : Nat) : List Tree → List Graft
  | [] => []
  | t :: ts => operand precedence true t :: ts.map (operand precedence false)

/-- Where an expression stands: the kind of the node around it, and whether it is its first
child. -/
structure Place where
  parent : Kind
  first : Bool

/-- The place of a node; none for the root. -/
def place? (a : Arena) (id : Nat) : Option Place := do
  let p ← a.parent? id
  return ⟨← a.kind? p, a.isChildAt p 0 id⟩

/-- Whether an expression of a precedence needs parentheses in a place. -/
def Place.needsParentheses (p : Place) (precedence : Nat) : Bool :=
  match p.parent with
  | .binary op =>
    precedence < op.precedence || (!p.first && precedence == op.precedence)
  | .prefixUnary _ | .postfixUnary _ => true
  | _ => false

/-- A binary expression with another operator in a place. -/
def withOperator (t : Tree) (place : Option Place) (op : BinaryOp) : Graft :=
  let graft := (Graft.retoken t (.binary op)).withChildren (operands op.precedence t.children)
  if place.any fun p => p.needsParentheses op.precedence then .parenthesize graft else graft

/-- A unary expression with another operator. -/
def ofUnary (t : Tree) (make : UnaryOp → Kind) (old new : UnaryOp) : Rewrite :=
  ⟨.retoken t (make new), swapSummary old.symbol new.symbol⟩

end Rewrite

namespace Mutator

/-- Whether a mutator deletes a node of this kind: statements that hold more than others. -/
def isDeletable (kind : Kind) : Bool :=
  kind.isStatement && kind != .block && kind != .emptyStatement

/-- Whether a node is a matter for a mutator, given the data flow of the method around it. -/
def applies (m : Mutator) (flow : Option MethodFlow) (id : Nat) (kind : Kind) : Bool :=
  match m, kind with
  | binaryOperator, .binary _ => true
  | postfixStep, .postfixUnary _ => true
  | prefixOperator, .prefixUnary _ => true
  | statementDeletion, kind => isDeletable kind
  | identifierReplacement, .identifier _ => flow.any fun f => f.covers id
  | _, _ => false

/-- The rewrites of a binary expression. -/
def binaryRewrites (a : Arena) (id : Nat) (t : Tree) (old : BinaryOp) : List Rewrite :=
  let place := Rewrite.place? a id
  (BinaryOp.interchangeable.filter (· != old)).map fun new =>
    ⟨Rewrite.withOperator t place new, Rewrite.swapSummary old.symbol new.symbol⟩

/-- The rewrites of an identifier: the other variables with a definition that reaches it. -/
def identifierRewrites (flow : MethodFlow) (id : Nat) (t : Tree) (old : String) :
    Except MutationError (List Rewrite) :=
  match flow.reachingDefinitions id with
  | .error e => .error (.dataflow e)
  | .ok facts =>
    .ok ((facts.names.toList.filter (· != old)).map fun new =>
      ⟨.retoken t (.identifier new), Rewrite.swapSummary old new⟩)

/-- What a mutator makes of a node, given the data flow of the method around it. -/
def rewrites (m : Mutator) (a : Arena) (flow : Option MethodFlow) (id : Nat) (t : Tree) :
    Except MutationError (List Rewrite) :=
  match m, t.kind with
  | binaryOperator, .binary old => .ok (binaryRewrites a id t old)
  | postfixStep, .postfixUnary old =>
    match old.flipped? with
    | some new => .ok [.ofUnary t .postfixUnary old new]
    | none => .error (.inapplicable m id)
  | prefixOperator, .prefixUnary old =>
    match old.flipped? with
    | some new => .ok [.ofUnary t .prefixUnary old new]
    | none =>
      .ok [.ofUnary t .prefixUnary old .increment, .ofUnary t .prefixUnary old .decrement]
  | statementDeletion, kind =>
    if isDeletable kind then .ok [⟨.synthetic .emptyStatement [], "delete " ++ kind.name⟩]
    else .error (.inapplicable m id)
  | identifierReplacement, .identifier old =>
    match flow with
    | some flow => identifierRewrites flow id t old
    | none => .error (.inapplicable m id)
  | _, _ => .error (.inapplicable m id)

/-- The first mutator of a list that a node is a matter for. -/
def first? (ms : List Mutator) (flow : Option MethodFlow) (id : Nat) (kind : Kind) :
    Option Mutator :=
  ms.find? fun m => m.applies flow id kind

end Mutator

end SharpMutants
