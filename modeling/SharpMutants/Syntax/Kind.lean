import SharpMutants.Decimal
import SharpMutants.Syntax.Operator

/-!
# Kinds of syntax nodes

A kind says what a node is and holds the names, operators and spellings that are
not children of the node.  Statements and expressions are recognised by kind,
and expression kinds have a binding strength that decides where parentheses are
needed.
-/

namespace SharpMutants

/-- The classes of literals. -/
inductive LiteralKind where
  | int
  | double
  | bool
  | string
deriving DecidableEq

/-- A literal keeps its spelling. -/
structure Literal where
  kind : LiteralKind
  text : String
deriving DecidableEq

/-- The value of an integer literal, if it fits into 64 bits with a sign. -/
def Literal.integer? (value : Literal) : Option Int :=
  if value.kind = .int then
    (Decimal.integer? value.text.toList).filter fun n =>
      -9223372036854775808 ≤ n ∧ n < 9223372036854775808
  else none

/-- The closed set of node kinds. -/
inductive Kind where
  | compilationUnit
  | usingDirective (path : String)
  | namespaceDecl (name : String)
  | classDecl (name : String) (modifiers : List Modifier)
  | fieldDecl (modifiers : List Modifier)
  | methodDecl (name : String) (modifiers : List Modifier) (returnType : TypeName)
  | parameter (name : String) (type : TypeName)
  | block
  | localDeclaration
  | variableDeclaration (type : TypeName)
  | variableDeclarator (name : String)
  | expressionStatement
  | emptyStatement
  | ifStatement
  | elseClause
  | whileStatement
  | forStatement
  | returnStatement
  | assignment (op : AssignOp)
  | binary (op : BinaryOp)
  | prefixUnary (op : UnaryOp)
  | postfixUnary (op : UnaryOp)
  | identifier (name : String)
  | literal (value : Literal)
  | parenthesized
  | invocation (callee : String)
deriving DecidableEq

namespace Kind

/-- The text that stands at the token of a node of this kind. -/
def tokenText? : Kind → Option String
  | assignment op => some op.symbol
  | binary op => some op.symbol
  | prefixUnary op => some op.symbol
  | postfixUnary op => some op.symbol
  | identifier name => some name
  | literal value => some value.text
  | _ => none

/-- Kinds of statements.  An `else` clause is a part of its `if`. -/
def isStatement : Kind → Bool
  | block | localDeclaration | expressionStatement | emptyStatement
  | ifStatement | whileStatement | forStatement | returnStatement => true
  | _ => false

/-- Kinds of expressions. -/
def isExpression : Kind → Bool
  | assignment _ | binary _ | prefixUnary _ | postfixUnary _
  | identifier _ | literal _ | parenthesized | invocation _ => true
  | _ => false

/-- Kinds of method declarations. -/
def isMethod : Kind → Bool
  | methodDecl .. => true
  | _ => false

/-- Binding strength of an expression: a higher one needs fewer parentheses. -/
def precedence : Kind → Nat
  | assignment _ => 0
  | binary op => op.precedence
  | prefixUnary _ => 7
  | postfixUnary _ => 8
  | _ => 9

/-- The name of a kind. -/
def name : Kind → String
  | compilationUnit => "CompilationUnit"
  | usingDirective _ => "Using"
  | namespaceDecl _ => "Namespace"
  | classDecl .. => "Class"
  | fieldDecl _ => "Field"
  | methodDecl .. => "Method"
  | parameter .. => "Parameter"
  | block => "Block"
  | localDeclaration => "LocalDeclaration"
  | variableDeclaration _ => "VariableDeclaration"
  | variableDeclarator _ => "VariableDeclarator"
  | expressionStatement => "ExpressionStatement"
  | emptyStatement => "EmptyStatement"
  | ifStatement => "If"
  | elseClause => "Else"
  | whileStatement => "While"
  | forStatement => "For"
  | returnStatement => "Return"
  | assignment _ => "Assignment"
  | binary _ => "Binary"
  | prefixUnary _ => "PrefixUnary"
  | postfixUnary _ => "PostfixUnary"
  | identifier _ => "Identifier"
  | literal _ => "Literal"
  | parenthesized => "Parenthesized"
  | invocation _ => "Invocation"

end Kind

end SharpMutants
