/-!
# Operators, modifiers and types

The closed vocabularies of the language: each has one spelling per element.
Binary operators also have a binding strength; all of their levels associate to
the left.
-/

namespace SharpMutants

/-- Built-in types. -/
inductive TypeName where
  | int
  | double
  | bool
  | string
  | void
deriving DecidableEq

/-- The keyword that names a type. -/
def TypeName.keyword : TypeName → String
  | .int => "int"
  | .double => "double"
  | .bool => "bool"
  | .string => "string"
  | .void => "void"

/-- Modifiers of classes and members. -/
inductive Modifier where
  | isPublic
  | isPrivate
  | isProtected
  | isInternal
  | isStatic
deriving DecidableEq

/-- The keyword of a modifier. -/
def Modifier.keyword : Modifier → String
  | .isPublic => "public"
  | .isPrivate => "private"
  | .isProtected => "protected"
  | .isInternal => "internal"
  | .isStatic => "static"

/-- Binary operators, the short-circuit ones included. -/
inductive BinaryOp where
  | add
  | sub
  | mul
  | div
  | rem
  | eq
  | ne
  | lt
  | le
  | gt
  | ge
  | and
  | or
deriving DecidableEq

namespace BinaryOp

/-- The spelling of an operator. -/
def symbol : BinaryOp → String
  | .add => "+"
  | .sub => "-"
  | .mul => "*"
  | .div => "/"
  | .rem => "%"
  | .eq => "=="
  | .ne => "!="
  | .lt => "<"
  | .le => "<="
  | .gt => ">"
  | .ge => ">="
  | .and => "&&"
  | .or => "||"

/-- Binding strength: a higher level binds tighter. -/
def precedence : BinaryOp → Nat
  | .or => 1
  | .and => 2
  | .eq | .ne => 3
  | .lt | .le | .gt | .ge => 4
  | .add | .sub => 5
  | .mul | .div | .rem => 6

end BinaryOp

/-- Simple and compound assignment operators. -/
inductive AssignOp where
  | assign
  | addAssign
  | subAssign
  | mulAssign
  | divAssign
  | remAssign
deriving DecidableEq

namespace AssignOp

/-- The spelling of an operator. -/
def symbol : AssignOp → String
  | .assign => "="
  | .addAssign => "+="
  | .subAssign => "-="
  | .mulAssign => "*="
  | .divAssign => "/="
  | .remAssign => "%="

/-- The arithmetic that a compound assignment performs; none for `=`. -/
def binaryOp? : AssignOp → Option BinaryOp
  | .assign => none
  | .addAssign => some .add
  | .subAssign => some .sub
  | .mulAssign => some .mul
  | .divAssign => some .div
  | .remAssign => some .rem

/-- A compound assignment reads its target before it writes it. -/
def isCompound (op : AssignOp) : Bool := op.binaryOp?.isSome

end AssignOp

/-- Unary operators.  Only `++` and `--` stand behind their operand too. -/
inductive UnaryOp where
  | increment
  | decrement
  | not
  | negate
  | plus
deriving DecidableEq

namespace UnaryOp

/-- The spelling of an operator. -/
def symbol : UnaryOp → String
  | .increment => "++"
  | .decrement => "--"
  | .not => "!"
  | .negate => "-"
  | .plus => "+"

/-- The operators that step a variable. -/
def isStep : UnaryOp → Bool
  | .increment | .decrement => true
  | _ => false

end UnaryOp

end SharpMutants
