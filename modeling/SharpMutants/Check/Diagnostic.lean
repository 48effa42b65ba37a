import SharpMutants.Source
import SharpMutants.Syntax.Tree
import SharpMutants.Check.Ty

/-!
# Diagnostics

A finding says what is wrong, or only suspicious, with a program.  Each finding
has a code and a wording; those about unused and unreachable parts are warnings,
all others are errors.  A diagnostic is a finding at a place.  A program is
accepted when no diagnostic is an error.
-/

namespace SharpMutants

/-- How grave a diagnostic is. -/
inductive Severity where
  | warning
  | error
deriving DecidableEq

/-- The word for a severity. -/
def Severity.word : Severity → String
  | warning => "warning"
  | error => "error"

/-- What a check may find. -/
inductive Finding where
  | duplicateParameter (name : String)
  | duplicateField (className name : String)
  | duplicateMethod (name : String)
  | missingReturn (method : String)
  | duplicateLocal (name : String)
  | shadowingLocal (name : String)
  | unassignedLocal (name : String)
  | unknownName (name : String)
  | narrowing
  | noConversion (given wanted : Ty)
  | unreachableCode
  | emptyBody
  | idleExpression
  | valueReturned (method : String)
  | valueMissing (wanted : Ty)
  | integerTooLarge
  | binaryOperands (op : BinaryOp) (left right : Ty)
  | zeroDivisor
  | steppedValue
  | unaryOperand (op : UnaryOp) (operand : Ty)
  | assignedValue
  | unknownConsoleMember (name : String)
  | argumentCount (method : String) (count : Nat)
  | argument (place : Nat) (given wanted : Ty)
  | voidArgument (place : Nat)
  | unusedValue (name : String)
  | unusedLocal (name : String)
deriving DecidableEq

namespace Finding

/-- The severity of a finding. -/
def severity : Finding → Severity
  | unreachableCode | emptyBody | unusedValue _ | unusedLocal _ => .warning
  | _ => .error

/-- The code of a finding. -/
def code : Finding → String
  | duplicateParameter _ => "CS0100"
  | duplicateField .. => "CS0102"
  | duplicateMethod _ => "CS0111"
  | missingReturn _ => "CS0161"
  | duplicateLocal _ => "CS0128"
  | shadowingLocal _ => "CS0136"
  | unassignedLocal _ => "CS0165"
  | unknownName _ => "CS0103"
  | narrowing => "CS0266"
  | noConversion .. => "CS0029"
  | unreachableCode => "CS0162"
  | emptyBody => "CS0642"
  | idleExpression => "CS0201"
  | valueReturned _ => "CS0127"
  | valueMissing _ => "CS0126"
  | integerTooLarge => "CS1021"
  | binaryOperands .. => "CS0019"
  | zeroDivisor => "CS0020"
  | steppedValue => "CS1059"
  | unaryOperand .. => "CS0023"
  | assignedValue => "CS0131"
  | unknownConsoleMember _ => "CS0117"
  | argumentCount .. => "CS1501"
  | argument .. => "CS1503"
  | voidArgument _ => "CS1503"
  | unusedValue _ => "CS0219"
  | unusedLocal _ => "CS0168"

/-- The wording of a finding. -/
def message : Finding → String
  | duplicateParameter name => "The parameter name '" ++ name ++ "' is a duplicate"
  | duplicateField className name =>
    "The type '" ++ className ++ "' already contains a definition for '" ++ name ++ "'"
  | duplicateMethod name =>
    "Type already defines a member called '" ++ name ++ "' with the same parameter types"
  | missingReturn method => "'" ++ method ++ "': not all code paths return a value"
  | duplicateLocal name =>
    "A local variable named '" ++ name ++ "' is already defined in this scope"
  | shadowingLocal name =>
    "A local or parameter named '" ++ name ++
      "' cannot be declared in this scope because that name is used in an enclosing local scope"
  | unassignedLocal name => "Use of unassigned local variable '" ++ name ++ "'"
  | unknownName name => "The name '" ++ name ++ "' does not exist in the current context"
  | narrowing =>
    "Cannot implicitly convert type 'long' to 'int'. " ++
      "An explicit conversion exists (are you missing a cast?)"
  | noConversion given wanted =>
    "Cannot implicitly convert type '" ++ given.name ++ "' to '" ++ wanted.name ++ "'"
  | unreachableCode => "Unreachable code detected"
  | emptyBody => "Possible mistaken empty statement"
  | idleExpression =>
    "Only assignment, call, increment, decrement, and new object expressions can be used as " ++
      "a statement"
  | valueReturned method =>
    "Since '" ++ method ++
      "' returns void, a return keyword must not be followed by an object expression"
  | valueMissing wanted => "An object of a type convertible to '" ++ wanted.name ++ "' is required"
  | integerTooLarge => "Integral constant is too large"
  | binaryOperands op left right =>
    "Operator '" ++ op.symbol ++ "' cannot be applied to operands of type '" ++ left.name ++
      "' and '" ++ right.name ++ "'"
  | zeroDivisor => "Division by constant zero"
  | steppedValue =>
    "The operand of an increment or decrement operator must be a variable, property or indexer"
  | unaryOperand op operand =>
    "Operator '" ++ op.symbol ++ "' cannot be applied to operand of type '" ++ operand.name ++ "'"
  | assignedValue =>
    "The left-hand side of an assignment must be a variable, property or indexer"
  | unknownConsoleMember name => "'Console' does not contain a definition for '" ++ name ++ "'"
  | argumentCount method count =>
    "No overload for method '" ++ method ++ "' takes " ++ toString count ++ " arguments"
  | argument place given wanted =>
    "Argument " ++ toString place ++ ": cannot convert from '" ++ given.name ++ "' to '" ++
      wanted.name ++ "'"
  | voidArgument place =>
    "Argument " ++ toString place ++ ": cannot convert from 'void' to 'object'"
  | unusedValue name => "The variable '" ++ name ++ "' is assigned but its value is never used"
  | unusedLocal name => "The variable '" ++ name ++ "' is declared but never used"

end Finding

/-- A remark at a place of a source. -/
structure Diagnostic where
  severity : Severity
  code : String
  message : String
  span : Span
  position : Text.Position
deriving DecidableEq

namespace Diagnostic

/-- The diagnostic of a finding at a place of a source. -/
def ofFinding (source : Source) (finding : Finding) (span : Span) : Diagnostic :=
  ⟨finding.severity, finding.code, finding.message, span, source.positionAt span.start⟩

/-- A diagnostic in one line. -/
def render (d : Diagnostic) : String :=
  "(" ++ toString d.position.line ++ "," ++ toString d.position.column ++ "): " ++
    d.severity.word ++ " " ++ d.code ++ ": " ++ d.message

/-- Whether a diagnostic is an error. -/
def isError (d : Diagnostic) : Bool := d.severity == .error

end Diagnostic

namespace Diagnostics

/-- Whether a program with these diagnostics is accepted. -/
def accepted (ds : List Diagnostic) : Bool := !ds.any Diagnostic.isError

/-- One diagnostic a line. -/
def render (ds : List Diagnostic) : String := String.intercalate "\n" (ds.map Diagnostic.render)

end Diagnostics

end SharpMutants
