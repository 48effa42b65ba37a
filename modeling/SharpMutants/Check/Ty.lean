import SharpMutants.Syntax.Operator

/-!
# Types of expressions

Besides the built-in types there is `long`, the type of integer literals outside
the range of `int`, and `unknown`, the type of an expression about which an
error has been reported; it converts to and from everything, so one mistake is
reported once.  Integers widen: `int` to `long`, and both to `double`.
-/

namespace SharpMutants

/-- The type of an expression. -/
inductive Ty where
  | int
  | long
  | double
  | bool
  | string
  | void
  | unknown
deriving DecidableEq

namespace Ty

/-- The type that a type name stands for. -/
def ofName : TypeName → Ty
  | .int => int
  | .double => double
  | .bool => bool
  | .string => string
  | .void => void

/-- The name of a type in messages. -/
def name : Ty → String
  | int => "int"
  | long => "long"
  | double => "double"
  | bool => "bool"
  | string => "string"
  | void => "void"
  | unknown => "?"

/-- The types of numbers. -/
def isNumeric : Ty → Bool
  | int | long | double => true
  | _ => false

/-- Implicit conversion. -/
def convertsTo (t target : Ty) : Bool :=
  t == target || t == unknown || target == unknown ||
    match t, target with
    | int, long | int, double | long, double => true
    | _, _ => false

/-- The smallest type of numbers that holds two. -/
def widen (l r : Ty) : Ty :=
  if l == double || r == double then double
  else if l == long || r == long then long
  else int

/-- The type of a binary operation, if the operator takes such operands. -/
def binary? (op : BinaryOp) (l r : Ty) : Option Ty :=
  let numbers := l.isNumeric && r.isNumeric
  if l == unknown || r == unknown then some unknown
  else
    match op with
    | .add =>
      if (l == string || r == string) && l != void && r != void then some string
      else if numbers then some (widen l r) else none
    | .sub | .mul | .div | .rem => if numbers then some (widen l r) else none
    | .lt | .le | .gt | .ge => if numbers then some bool else none
    | .eq | .ne => if numbers || (l == r && l != void) then some bool else none
    | .and | .or => if l == bool && r == bool then some bool else none

end Ty

end SharpMutants
