import SharpMutants.Syntax.Tree

/-!
# Tokens

A token is an identifier, a number, a string, a keyword, a mark of punctuation,
or the end of the input.  Keywords and marks have one spelling each; a mark has
one character or two, and two are tried before one.
-/

namespace SharpMutants

/-- Reserved words. -/
inductive Keyword where
  | usingWord
  | namespaceWord
  | classWord
  | modifier (modifier : Modifier)
  | typeName (type : TypeName)
  | ifWord
  | elseWord
  | whileWord
  | forWord
  | returnWord
  | trueWord
  | falseWord
deriving DecidableEq

namespace Keyword

/-- The spelling of a keyword. -/
def spelling : Keyword → String
  | usingWord => "using"
  | namespaceWord => "namespace"
  | classWord => "class"
  | modifier m => m.keyword
  | typeName t => t.keyword
  | ifWord => "if"
  | elseWord => "else"
  | whileWord => "while"
  | forWord => "for"
  | returnWord => "return"
  | trueWord => "true"
  | falseWord => "false"

/-- The keyword that a word spells. -/
def ofWord? (word : Text) : Option Keyword :=
  match String.ofList word with
  | "using" => some usingWord
  | "namespace" => some namespaceWord
  | "class" => some classWord
  | "public" => some (modifier .isPublic)
  | "private" => some (modifier .isPrivate)
  | "protected" => some (modifier .isProtected)
  | "internal" => some (modifier .isInternal)
  | "static" => some (modifier .isStatic)
  | "void" => some (typeName .void)
  | "int" => some (typeName .int)
  | "double" => some (typeName .double)
  | "bool" => some (typeName .bool)
  | "string" => some (typeName .string)
  | "if" => some ifWord
  | "else" => some elseWord
  | "while" => some whileWord
  | "for" => some forWord
  | "return" => some returnWord
  | "true" => some trueWord
  | "false" => some falseWord
  | _ => none

/-- A keyword is known by its spelling. -/
theorem ofWord?_spelling (k : Keyword) : ofWord? k.spelling.toList = some k := by
  cases k with
  | modifier m => cases m <;> rfl
  | typeName t => cases t <;> rfl
  | _ => rfl

end Keyword

/-- Marks of punctuation and operators. -/
inductive Mark where
  | plusPlus
  | minusMinus
  | plusEq
  | minusEq
  | starEq
  | slashEq
  | percentEq
  | eqEq
  | bangEq
  | lessEq
  | greaterEq
  | andAnd
  | orOr
  | openBrace
  | closeBrace
  | openParen
  | closeParen
  | semicolon
  | comma
  | dot
  | plus
  | minus
  | star
  | slash
  | percent
  | eq
  | less
  | greater
  | bang
deriving DecidableEq

namespace Mark

/-- The characters of a mark. -/
def characters : Mark → Text
  | plusPlus => ['+', '+']
  | minusMinus => ['-', '-']
  | plusEq => ['+', '=']
  | minusEq => ['-', '=']
  | starEq => ['*', '=']
  | slashEq => ['/', '=']
  | percentEq => ['%', '=']
  | eqEq => ['=', '=']
  | bangEq => ['!', '=']
  | lessEq => ['<', '=']
  | greaterEq => ['>', '=']
  | andAnd => ['&', '&']
  | orOr => ['|', '|']
  | openBrace => ['\x7b']
  | closeBrace => ['\x7d']
  | openParen => ['(']
  | closeParen => [')']
  | semicolon => [';']
  | comma => [',']
  | dot => ['.']
  | plus => ['+']
  | minus => ['-']
  | star => ['*']
  | slash => ['/']
  | percent => ['%']
  | eq => ['=']
  | less => ['<']
  | greater => ['>']
  | bang => ['!']

/-- The spelling of a mark. -/
def spelling (m : Mark) : String := String.ofList m.characters

/-- The mark of two characters. -/
def ofPair? : Char → Char → Option Mark
  | '+', '+' => some plusPlus
  | '-', '-' => some minusMinus
  | '+', '=' => some plusEq
  | '-', '=' => some minusEq
  | '*', '=' => some starEq
  | '/', '=' => some slashEq
  | '%', '=' => some percentEq
  | '=', '=' => some eqEq
  | '!', '=' => some bangEq
  | '<', '=' => some lessEq
  | '>', '=' => some greaterEq
  | '&', '&' => some andAnd
  | '|', '|' => some orOr
  | _, _ => none

/-- The mark of one character. -/
def ofChar? : Char → Option Mark
  | '\x7b' => some openBrace
  | '\x7d' => some closeBrace
  | '(' => some openParen
  | ')' => some closeParen
  | ';' => some semicolon
  | ',' => some comma
  | '.' => some dot
  | '+' => some plus
  | '-' => some minus
  | '*' => some star
  | '/' => some slash
  | '%' => some percent
  | '=' => some eq
  | '<' => some less
  | '>' => some greater
  | '!' => some bang
  | _ => none

/-- The longest mark that a text begins with. -/
def ofStart? : Text → Option Mark
  | c :: d :: _ => (ofPair? c d).or (ofChar? c)
  | [c] => ofChar? c
  | [] => none

/-- A mark is known by its characters. -/
theorem ofStart?_characters (m : Mark) : ofStart? m.characters = some m := by
  cases m <;> rfl

/-- The binary operator that a mark stands for. -/
def binaryOp? : Mark → Option BinaryOp
  | plus => some .add
  | minus => some .sub
  | star => some .mul
  | slash => some .div
  | percent => some .rem
  | eqEq => some .eq
  | bangEq => some .ne
  | less => some .lt
  | lessEq => some .le
  | greater => some .gt
  | greaterEq => some .ge
  | andAnd => some .and
  | orOr => some .or
  | _ => none

/-- The assignment operator that a mark stands for. -/
def assignOp? : Mark → Option AssignOp
  | eq => some .assign
  | plusEq => some .addAssign
  | minusEq => some .subAssign
  | starEq => some .mulAssign
  | slashEq => some .divAssign
  | percentEq => some .remAssign
  | _ => none

/-- The operator that a mark stands for in front of an operand. -/
def prefixOp? : Mark → Option UnaryOp
  | plusPlus => some .increment
  | minusMinus => some .decrement
  | bang => some .not
  | minus => some .negate
  | plus => some .plus
  | _ => none

/-- The operator that a mark stands for behind an operand. -/
def postfixOp? : Mark → Option UnaryOp
  | plusPlus => some .increment
  | minusMinus => some .decrement
  | _ => none

end Mark

/-- The classes of tokens. -/
inductive TokenKind where
  | identifier
  | int
  | double
  | string
  | keyword (keyword : Keyword)
  | mark (mark : Mark)
  | endOfInput
deriving DecidableEq

/-- A token with its spelling and its place in the source. -/
structure Token where
  kind : TokenKind
  text : Text
  span : Span
deriving DecidableEq

end SharpMutants
