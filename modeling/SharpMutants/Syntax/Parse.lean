import SharpMutants.Syntax.Scan
import SharpMutants.Syntax.Document

/-!
# Reading a source into a tree

The grammar is read by recursive descent over the tokens, one token ahead, and
two to tell a method from a field.  Binary operators are read by climbing the
levels of binding strength, all of them to the left; assignment is read to the
right; an `else` goes with the nearest `if`.

Every reader is given a bound on its depth of calls.  Between two tokens the
readers descend fewer than `depthPerToken` levels, so the bound that `parse`
computes from the number of tokens is never met.
-/

namespace SharpMutants

/-- A place in the token list: the tokens to come, and where the last one read ended. -/
structure Cursor where
  lastStop : Nat
  rest : List Token

namespace Cursor

/-- The next token; the end of the input stays there. -/
def next (c : Cursor) : Token :=
  match c.rest with
  | token :: _ => token
  | [] => ⟨.endOfInput, [], ⟨c.lastStop, c.lastStop⟩⟩

/-- The token after the next. -/
def second (c : Cursor) : Token :=
  match c.rest with
  | _ :: token :: _ => token
  | _ => c.next

/-- The place after the next token. -/
def step (c : Cursor) : Cursor :=
  match c.rest with
  | token :: rest => if token.kind = .endOfInput then c else ⟨token.span.stop, rest⟩
  | [] => c

end Cursor

/-- A reader either goes on with a result or refuses with an offset and a cause. -/
abbrev Parser := StateT Cursor (Except (Nat × ParseCause))

namespace Parser

/-- Looks at the next token. -/
@[inline] def peek : Parser Token := fun c => .ok (c.next, c)

/-- Looks at the token after the next. -/
@[inline] def peekSecond : Parser Token := fun c => .ok (c.second, c)

/-- Takes the next token. -/
@[inline] def take : Parser Token := fun c => .ok (c.next, c.step)

/-- Where the last token ended. -/
@[inline] def lastStop : Parser Nat := fun c => .ok (c.lastStop, c)

/-- Refuses the next token. -/
def refuse {α : Type} (expected : Expected) : Parser α := fun c =>
  let found := if c.next.kind = .endOfInput then none else some c.next.text
  .error (c.next.span.start, .unexpectedToken expected found)

/-- Whether the next token is of a kind. -/
@[inline] def at? (kind : TokenKind) : Parser Bool := do return decide ((← peek).kind = kind)

/-- Takes the next token if it is of a kind. -/
@[inline] def accept (kind : TokenKind) : Parser Bool := do
  if ← at? kind then
    discard take
    return true
  else return false

/-- Takes the next token, which has to be of a kind. -/
@[inline] def expect (kind : TokenKind) (expected : Expected) : Parser Token := do
  if ← at? kind then take else refuse expected

/-- Takes a mark. -/
def mark (m : Mark) : Parser Token := expect (.mark m) (.mark m)

/-- Takes a keyword. -/
def keyword (k : Keyword) : Parser Token := expect (.keyword k) (.keyword k)

/-- Takes an identifier. -/
def identifier : Parser Token := expect .identifier .identifier

/-- A node read from the source, from an offset to the end of the last token. -/
@[inline] def nodeFrom (start : Nat) (kind : Kind) (token : Option Span) (children : List Tree) :
    Parser Tree := do
  return .node ⟨kind, ⟨start, ← lastStop⟩, token, false, none⟩ children

/-- A node read from the source with a given extent and token. -/
def nodeAt (span : Span) (kind : Kind) (token : Span) (children : List Tree) : Tree :=
  .node ⟨kind, span, some token, false, none⟩ children

/-- The text of a token as a name. -/
def nameOf (t : Token) : String := String.ofList t.text

/-- The type that a token names where values are declared, so not `void`. -/
def valueType? : TokenKind → Option TypeName
  | .keyword (.typeName .void) => none
  | .keyword (.typeName t) => some t
  | _ => none

/-- Takes the name of a type of values. -/
def valueType : Parser TypeName := do
  match valueType? (← peek).kind with
  | some t =>
    discard take
    return t
  | none => refuse .typeName

/-- The rest of a dotted name that begins with `name`. -/
def dottedName : Nat → String → Parser String
  | 0, _ => refuse .identifier
  | n + 1, name => do
    if ← accept (.mark .dot) then
      let segment ← identifier
      dottedName n (name ++ "." ++ nameOf segment)
    else return name

/-- A dotted name. -/
def qualifiedName (n : Nat) : Parser String := do
  dottedName n (nameOf (← identifier))

/-- The literal class of a token. -/
def literalKind? : TokenKind → Option LiteralKind
  | .int => some .int
  | .double => some .double
  | .string => some .string
  | .keyword .trueWord | .keyword .falseWord => some .bool
  | _ => none

/-- The assignment operator of a token. -/
def assignOp? : TokenKind → Option AssignOp
  | .mark m => m.assignOp?
  | _ => none

/-- The binary operator of a token. -/
def binaryOp? : TokenKind → Option BinaryOp
  | .mark m => m.binaryOp?
  | _ => none

/-- The operator of a token in front of an operand. -/
def prefixOp? : TokenKind → Option UnaryOp
  | .mark m => m.prefixOp?
  | _ => none

/-- The operator of a token behind an operand. -/
def postfixOp? : TokenKind → Option UnaryOp
  | .mark m => m.postfixOp?
  | _ => none

/-- The elements of a list, none if the next token is of a kind. -/
@[inline] def unlessAt (kind : TokenKind) (elements : Parser (List Tree)) :
    Parser (List Tree) := do
  if ← at? kind then return [] else elements

/-- A list of one element, and of more if a comma follows. -/
@[inline] def andMore (first : Tree) (more : Parser (List Tree)) : Parser (List Tree) := do
  if ← accept (.mark .comma) then return first :: (← more) else return [first]

/-- The elements up to a closing brace, from readers of the first and of all further ones. -/
@[inline] def upToBrace (first : Parser Tree) (more : Parser (List Tree)) :
    Parser (List Tree) := do
  if ← at? (.mark .closeBrace) then return []
  else if ← at? .endOfInput then refuse (.mark .closeBrace)
  else
    let element ← first
    return element :: (← more)

/-- A literal. -/
def literal (token : Token) (kind : LiteralKind) : Parser Tree := do
  discard take
  return nodeAt token.span (.literal ⟨kind, nameOf token⟩) token.span []

/-- An expression in parentheses. -/
def parenthesized (start : Nat) (inner : Parser Tree) : Parser Tree := do
  discard take
  let tree ← inner
  discard (mark .closeParen)
  nodeFrom start .parenthesized none [tree]

/-- The rest of a call that begins with a name. -/
def call (n : Nat) (token : Token) (args : Parser (List Tree)) : Parser Tree := do
  let callee ← dottedName n (nameOf token)
  discard (expect (.mark .openParen) .callArguments)
  let args ← unlessAt (.mark .closeParen) args
  discard (mark .closeParen)
  nodeFrom token.span.start (.invocation callee) none args

/-- A name, or a call if a parenthesis or a dot follows. -/
def nameOrCall (n : Nat) (token : Token) (args : Parser (List Tree)) : Parser Tree := do
  discard take
  if (← at? (.mark .openParen)) || (← at? (.mark .dot)) then call n token args
  else return nodeAt token.span (.identifier (nameOf token)) token.span []

/-- The operators behind an operand. -/
def postfixTail : Nat → Tree → Parser Tree
  | 0, _ => refuse .expression
  | n + 1, operand => do
    match postfixOp? (← peek).kind with
    | none => return operand
    | some op =>
      let token ← take
      postfixTail n
        (nodeAt (operand.span.cover token.span) (.postfixUnary op) token.span [operand])

mutual

/-- An expression: an assignment, or a binary expression of any level. -/
def expression : Nat → Parser Tree
  | 0 => refuse .expression
  | n + 1 => do
    let target ← binary n 1
    match assignOp? (← peek).kind with
    | none => return target
    | some op =>
      let token ← take
      let value ← expression n
      return nodeAt (target.span.cover value.span) (.assignment op) token.span [target, value]

/-- A binary expression whose operators bind at least as tight as a level. -/
def binary : Nat → Nat → Parser Tree
  | 0, _ => refuse .expression
  | n + 1, level => do
    let left ← unary n
    binaryTail n level left

/-- The operators and right operands after a left operand. -/
def binaryTail : Nat → Nat → Tree → Parser Tree
  | 0, _, _ => refuse .expression
  | n + 1, level, left => do
    match binaryOp? (← peek).kind with
    | none => return left
    | some op =>
      if op.precedence < level then return left
      else
        let token ← take
        let right ← binary n (op.precedence + 1)
        binaryTail n level
          (nodeAt (left.span.cover right.span) (.binary op) token.span [left, right])

/-- Operators in front, then a primary expression with operators behind. -/
def unary : Nat → Parser Tree
  | 0 => refuse .expression
  | n + 1 => do
    match prefixOp? (← peek).kind with
    | some op =>
      let token ← take
      let operand ← unary n
      return nodeAt (token.span.cover operand.span) (.prefixUnary op) token.span [operand]
    | none =>
      let operand ← primary n
      postfixTail n operand

/-- A literal, a name, a call or an expression in parentheses. -/
def primary : Nat → Parser Tree
  | 0 => refuse .expression
  | n + 1 => do
    let token ← peek
    match literalKind? token.kind with
    | some kind => literal token kind
    | none =>
      if token.kind = .mark .openParen then parenthesized token.span.start (expression n)
      else if token.kind = .identifier then nameOrCall n token (arguments n)
      else refuse .expression

/-- One or more expressions with commas between. -/
def arguments : Nat → Parser (List Tree)
  | 0 => refuse .expression
  | n + 1 => do
    let arg ← expression n
    andMore arg (arguments n)

end

/-- The value after an equals sign, if one follows. -/
def initializer (n : Nat) : Parser (List Tree) := do
  if ← accept (.mark .eq) then return [← expression n] else return []

/-- One or more declarators with commas between. -/
def declarators : Nat → Parser (List Tree)
  | 0 => refuse .identifier
  | n + 1 => do
    let name ← identifier
    let init ← initializer n
    let declarator ←
      nodeFrom name.span.start (.variableDeclarator (nameOf name)) (some name.span) init
    andMore declarator (declarators n)

/-- The declarators after a type that begins at an offset. -/
def variableDeclaration (n start : Nat) (type : TypeName) : Parser Tree := do
  nodeFrom start (.variableDeclaration type) none (← declarators n)

/-- A condition in parentheses. -/
def condition (n : Nat) : Parser Tree := do
  discard (mark .openParen)
  let cond ← expression n
  discard (mark .closeParen)
  return cond

/-- The declaration or expression in the head of a `for`. -/
def forInit (n : Nat) : Parser Tree := do
  let head ← peek
  match valueType? head.kind with
  | some type =>
    discard take
    variableDeclaration n head.span.start type
  | none => expression n

/-- A block, from a reader of what stands in the braces. -/
def braced (statements : Parser (List Tree)) : Parser Tree := do
  let brace ← mark .openBrace
  let body ← statements
  discard take
  nodeFrom brace.span.start .block none body

/-- A statement without anything. -/
def emptyStatement (start : Nat) : Parser Tree := do
  discard take
  nodeFrom start .emptyStatement none []

/-- An `else` with its branch, if one follows. -/
def elseClause (branch : Parser Tree) : Parser (List Tree) := do
  let other ← peek
  if other.kind = .keyword .elseWord then
    discard take
    let body ← branch
    return [← nodeFrom other.span.start .elseClause none [body]]
  else return []

/-- An `if`, from a reader of its branches. -/
def ifStatement (n start : Nat) (branch : Parser Tree) : Parser Tree := do
  discard take
  let cond ← condition n
  let thenBranch ← branch
  let otherwise ← elseClause branch
  nodeFrom start .ifStatement none (cond :: thenBranch :: otherwise)

/-- A `while`, from a reader of its body. -/
def whileStatement (n start : Nat) (body : Parser Tree) : Parser Tree := do
  discard take
  let cond ← condition n
  let body ← body
  nodeFrom start .whileStatement none [cond, body]

/-- A `for`, from a reader of its body. -/
def forStatement (n start : Nat) (body : Parser Tree) : Parser Tree := do
  discard take
  discard (mark .openParen)
  let init ← forInit n
  discard (mark .semicolon)
  let cond ← expression n
  discard (mark .semicolon)
  let step ← expression n
  discard (mark .closeParen)
  let body ← body
  nodeFrom start .forStatement none [init, cond, step, body]

/-- A `return` with a value or without. -/
def returnStatement (n start : Nat) : Parser Tree := do
  discard take
  let value ← unlessAt (.mark .semicolon) (return [← expression n])
  discard (mark .semicolon)
  nodeFrom start .returnStatement none value

/-- A declaration of local variables of a type. -/
def localDeclaration (n start : Nat) (type : TypeName) : Parser Tree := do
  discard take
  let declaration ← variableDeclaration n start type
  discard (mark .semicolon)
  nodeFrom start .localDeclaration none [declaration]

/-- An expression as a statement. -/
def expressionStatement (n start : Nat) : Parser Tree := do
  let value ← expression n
  discard (mark .semicolon)
  nodeFrom start .expressionStatement none [value]

mutual

/-- A block of statements in braces. -/
def block : Nat → Parser Tree
  | 0 => refuse (.mark .closeBrace)
  | n + 1 => braced (statements n)

/-- Statements up to a closing brace. -/
def statements : Nat → Parser (List Tree)
  | 0 => refuse (.mark .closeBrace)
  | n + 1 => upToBrace (statement n) (statements n)

/-- One statement. -/
def statement : Nat → Parser Tree
  | 0 => refuse .expression
  | n + 1 => do
    let token ← peek
    let start := token.span.start
    match token.kind with
    | .mark .openBrace => block n
    | .mark .semicolon => emptyStatement start
    | .keyword .ifWord => ifStatement n start (statement n)
    | .keyword .whileWord => whileStatement n start (statement n)
    | .keyword .forWord => forStatement n start (statement n)
    | .keyword .returnWord => returnStatement n start
    | .keyword .elseWord => refuse .openIf
    | kind =>
      match valueType? kind with
      | some type => localDeclaration n start type
      | none => expressionStatement n start

end

/-- Modifiers in a row. -/
def modifiers : Nat → Parser (List Modifier)
  | 0 => return []
  | n + 1 => do
    match (← peek).kind with
    | .keyword (.modifier m) =>
      discard take
      return m :: (← modifiers n)
    | _ => return []

/-- One or more parameters with commas between. -/
def parameters : Nat → Parser (List Tree)
  | 0 => refuse .typeName
  | n + 1 => do
    let start := (← peek).span.start
    let type ← valueType
    let name ← identifier
    let parameter ← nodeFrom start (.parameter (nameOf name) type) none []
    andMore parameter (parameters n)

/-- The type of a member; only a method may have none. -/
def memberType : Parser TypeName := do
  if ← accept (.keyword (.typeName .void)) then return .void else valueType

/-- A method, from its name on. -/
def methodRest (n start : Nat) (ms : List Modifier) (type : TypeName) : Parser Tree := do
  let name ← identifier
  discard (mark .openParen)
  let ps ← unlessAt (.mark .closeParen) (parameters n)
  discard (mark .closeParen)
  let body ← block n
  nodeFrom start (.methodDecl (nameOf name) ms type) none (ps ++ [body])

/-- A field, from its first name on, after a type that begins at `typeStart`. -/
def fieldRest (n start typeStart : Nat) (ms : List Modifier) (type : TypeName) :
    Parser Tree := do
  let declaration ← variableDeclaration n typeStart type
  discard (mark .semicolon)
  nodeFrom start (.fieldDecl ms) none [declaration]

/-- A field or a method: a name and an opening parenthesis after the type make a method. -/
def member (n : Nat) : Parser Tree := do
  let start := (← peek).span.start
  let ms ← modifiers n
  let typeToken ← peek
  let type ← memberType
  if (← at? .identifier) && (← peekSecond).kind = .mark .openParen then
    methodRest n start ms type
  else if type = .void then refuse .methodName
  else fieldRest n start typeToken.span.start ms type

/-- Members up to a closing brace. -/
def members : Nat → Parser (List Tree)
  | 0 => refuse (.mark .closeBrace)
  | n + 1 => upToBrace (member n) (members n)

/-- A class declaration. -/
def classDecl (n : Nat) : Parser Tree := do
  let start := (← peek).span.start
  let ms ← modifiers n
  discard (keyword .classWord)
  let name ← identifier
  discard (mark .openBrace)
  let body ← members n
  discard take
  nodeFrom start (.classDecl (nameOf name) ms) none body

/-- Classes up to a closing brace. -/
def classes : Nat → Parser (List Tree)
  | 0 => refuse (.mark .closeBrace)
  | n + 1 => upToBrace (classDecl n) (classes n)

/-- A namespace with its classes. -/
def namespaceDecl (n : Nat) : Parser Tree := do
  let start := (← keyword .namespaceWord).span.start
  let name ← qualifiedName n
  discard (mark .openBrace)
  let body ← classes n
  discard take
  nodeFrom start (.namespaceDecl name) none body

/-- The using directives at the beginning. -/
def usings : Nat → Parser (List Tree)
  | 0 => return []
  | n + 1 => do
    if ← at? (.keyword .usingWord) then
      let start := (← take).span.start
      let path ← qualifiedName n
      discard (mark .semicolon)
      let directive ← nodeFrom start (.usingDirective path) none []
      return directive :: (← usings n)
    else return []

/-- A namespace or a class. -/
def declaration (n : Nat) : Parser Tree := do
  if ← at? (.keyword .namespaceWord) then namespaceDecl n else classDecl n

/-- Namespaces and classes up to the end of the input. -/
def declarations : Nat → Parser (List Tree)
  | 0 => refuse (.keyword .classWord)
  | n + 1 => do
    if ← at? .endOfInput then return []
    else
      let first ← declaration n
      return first :: (← declarations n)

/-- A whole source of a given width. -/
def compilationUnit (n width : Nat) : Parser Tree := do
  let directives ← usings n
  let body ← declarations n
  return .node ⟨.compilationUnit, ⟨0, width⟩, none, false, none⟩ (directives ++ body)

/-- More levels than the readers descend from one token to the next. -/
def depthPerToken : Nat := 16

end Parser

/-- The document of a source text. -/
def parse (source : Text) : Except ParseError Document := do
  let tokens ← tokenize source
  let depth := Parser.depthPerToken * (tokens.length + 1)
  match (Parser.compilationUnit depth (Text.width source)).run ⟨0, tokens⟩ with
  | .ok (tree, _) => return ⟨.ofText source, tree⟩
  | .error (offset, cause) => throw (.atOffset source offset cause)

end SharpMutants
