import SharpMutants.Syntax.Token

/-!
# Errors of reading a source

A source is refused at one place: at the start of a comment or string that is
not closed, at a character that begins no token, or at the first token that fits
no rule.  The error keeps the byte offset of the place, its line and column, and
the cause.
-/

namespace SharpMutants

/-- What the grammar asks for at a place. -/
inductive Expected where
  | mark (mark : Mark)
  | keyword (keyword : Keyword)
  | identifier
  | typeName
  | methodName
  | expression
  /-- An `else` needs an `if` before it. -/
  | openIf
  /-- A dotted name is only the name of a call. -/
  | callArguments

/-- The demand in words. -/
def Expected.message : Expected → String
  | mark m => "expected `" ++ m.spelling ++ "`"
  | keyword k => "expected `" ++ k.spelling ++ "`"
  | identifier => "expected identifier"
  | typeName => "expected a type"
  | methodName => "expected method name"
  | expression => "expected expression"
  | openIf => "`else` without `if`"
  | callArguments => "member access is only supported in invocations; expected `(`"

/-- Why a source is refused. -/
inductive ParseCause where
  | unterminatedComment
  | unterminatedString
  | unexpectedCharacter (character : Char)
  /-- The token found is given by its spelling, the end of the input by none. -/
  | unexpectedToken (expected : Expected) (found : Option Text)

/-- The cause in words. -/
def ParseCause.message : ParseCause → String
  | unterminatedComment => "unterminated block comment"
  | unterminatedString => "unterminated string literal"
  | unexpectedCharacter c => "unexpected character `" ++ String.singleton c ++ "`"
  | unexpectedToken expected none => expected.message ++ ", found end of input"
  | unexpectedToken expected (some text) =>
    expected.message ++ ", found `" ++ String.ofList text ++ "`"

/-- A refusal and its place. -/
structure ParseError where
  offset : Nat
  position : Text.Position
  cause : ParseCause

namespace ParseError

/-- The error at a byte offset of a source. -/
def atOffset (source : Text) (offset : Nat) (cause : ParseCause) : ParseError :=
  ⟨offset, Text.positionAt source offset, cause⟩

/-- Line, column and cause. -/
def message (e : ParseError) : String :=
  toString e.position.line ++ ":" ++ toString e.position.column ++ ": " ++ e.cause.message

end ParseError

end SharpMutants
