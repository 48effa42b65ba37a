import Mathlib.Data.List.Forall2
import SharpMutants.Syntax.Scan

/-!
# The grammar of the language

A tree conforms to the grammar when every node is an instance of a `Rule` that
says what its children may be, and every word in it is spelled as its class asks.
The concrete form of a node is its `phrase`: the words of the node with places
for its children.  The `yield` of a tree fills the places with the yields of the
children, so it is the sequence of words that the tree stands for.

The rules are those of an unambiguous grammar:

    unit        := using* (namespace | class)*
    namespace   := 'namespace' name '{' class* '}'
    class       := modifier* 'class' IDENT '{' (field | method)* '}'
    method      := modifier* (type | 'void') IDENT '(' parameters? ')' block
    statement   := block | declaration ';' | if | while | for | return | expr ';' | ';'
    expr        := or (assignOp expr)?
    or, …, mul  := the level above, or this level, an operator of it, the level above
    unary       := prefixOp unary | postfix
    postfix     := primary | postfix ('++' | '--')

An expression symbol carries the level of binding strength that the expression
must reach, so a left operand binds at least as tightly as its operator and a
right operand tighter.  A statement symbol says whether an `else` may follow; a
statement that ends in an `if` without `else` is not derived from such a symbol,
so an `else` belongs to the nearest `if`.
-/

namespace SharpMutants

/-- A token without its place. -/
structure Lexeme where
  kind : TokenKind
  text : Text
deriving DecidableEq

/-- What a token is, apart from its place. -/
def Token.lexeme (t : Token) : Lexeme := ⟨t.kind, t.text⟩

namespace Lexeme

/-- A mark in its spelling. -/
def mark (m : Mark) : Lexeme := ⟨.mark m, m.characters⟩

/-- A keyword in its spelling. -/
def keyword (k : Keyword) : Lexeme := ⟨.keyword k, k.spelling.toList⟩

/-- An identifier. -/
def name (text : Text) : Lexeme := ⟨.identifier, text⟩

/-- The end of the input. -/
def endOfInput : Lexeme := ⟨.endOfInput, []⟩

/-- The text of a lexeme belongs to its class: read alone it is one token of that kind. -/
def WellSpelled (l : Lexeme) : Prop :=
  ∃ c cs, l.text = c :: cs ∧ Scan.lexeme c cs = .token l.kind cs.length

/-- Names with dots between them. -/
def dots : List Text → List Lexeme
  | [] => []
  | n :: ns => name n :: ns.flatMap fun n => [mark .dot, name n]

/-- The words of a dotted name. -/
def dotted (path : String) : List Lexeme := dots (path.toList.splitOn '.')

end Lexeme

/-- The mark of a binary operator. -/
def BinaryOp.mark : BinaryOp → Mark
  | .add => .plus
  | .sub => .minus
  | .mul => .star
  | .div => .slash
  | .rem => .percent
  | .eq => .eqEq
  | .ne => .bangEq
  | .lt => .less
  | .le => .lessEq
  | .gt => .greater
  | .ge => .greaterEq
  | .and => .andAnd
  | .or => .orOr

/-- The mark of an assignment operator. -/
def AssignOp.mark : AssignOp → Mark
  | .assign => .eq
  | .addAssign => .plusEq
  | .subAssign => .minusEq
  | .mulAssign => .starEq
  | .divAssign => .slashEq
  | .remAssign => .percentEq

/-- The mark of a unary operator. -/
def UnaryOp.mark : UnaryOp → Mark
  | .increment => .plusPlus
  | .decrement => .minusMinus
  | .not => .bang
  | .negate => .minus
  | .plus => .plus

/-- The class of token that spells a literal. -/
def Literal.tokenKind (value : Literal) : TokenKind :=
  match value.kind with
  | .int => .int
  | .double => .double
  | .string => .string
  | .bool => .keyword (if value.text = "true" then .trueWord else .falseWord)

/-- The lexeme of a literal. -/
def Literal.lexeme (value : Literal) : Lexeme := ⟨value.tokenKind, value.text.toList⟩

/-- A part of a phrase: a word, the word that is the node's own token, or a child. -/
inductive Part (α : Type) where
  | word (lexeme : Lexeme)
  | own (lexeme : Lexeme)
  | child (child : α)

namespace Part

variable {α β : Type}

/-- The part with its child replaced. -/
def map (f : α → β) : Part α → Part β
  | word l => word l
  | own l => own l
  | child a => child (f a)

/-- The words of some parts. -/
def lexemes : List (Part α) → List Lexeme
  | [] => []
  | word l :: ps | own l :: ps => l :: lexemes ps
  | child _ :: ps => lexemes ps

/-- The children of some parts. -/
def children : List (Part α) → List α
  | [] => []
  | word _ :: ps | own _ :: ps => children ps
  | child a :: ps => a :: children ps

/-- The children with commas between them. -/
def commas : List α → List (Part α)
  | [] => []
  | [c] => [child c]
  | c :: cs => child c :: word (.mark .comma) :: commas cs

/-- The children in braces. -/
def braced (cs : List α) : List (Part α) :=
  word (.mark .openBrace) :: (cs.map child ++ [word (.mark .closeBrace)])

/-- A dotted name. -/
def dotted (path : String) : List (Part α) := (Lexeme.dotted path).map word

/-- Modifiers in a row. -/
def modifiers (ms : List Modifier) : List (Part α) :=
  ms.map fun m => word (.keyword (.modifier m))

end Part

open SharpMutants.Part in
/-- The concrete form of a node: its words, with its children in their places. -/
def Kind.phrase {α : Type} : Kind → List α → List (Part α)
  | .compilationUnit, cs => cs.map child
  | .usingDirective path, _ =>
    word (.keyword .usingWord) :: (dotted path ++ [word (.mark .semicolon)])
  | .namespaceDecl path, cs => word (.keyword .namespaceWord) :: (dotted path ++ braced cs)
  | .classDecl name ms, cs =>
    modifiers ms ++ word (.keyword .classWord) :: word (.name name.toList) :: braced cs
  | .fieldDecl ms, cs => modifiers ms ++ (cs.map child ++ [word (.mark .semicolon)])
  | .methodDecl name ms type, cs =>
    modifiers ms ++ word (.keyword (.typeName type)) :: word (.name name.toList) ::
      word (.mark .openParen) :: (commas cs.dropLast ++
        word (.mark .closeParen) :: cs.getLast?.toList.map child)
  | .parameter name type, _ => [word (.keyword (.typeName type)), word (.name name.toList)]
  | .block, cs => braced cs
  | .localDeclaration, cs | .expressionStatement, cs =>
    cs.map child ++ [word (.mark .semicolon)]
  | .variableDeclaration type, cs => word (.keyword (.typeName type)) :: commas cs
  | .variableDeclarator name, [] => [own (.name name.toList)]
  | .variableDeclarator name, cs =>
    own (.name name.toList) :: word (.mark .eq) :: cs.map child
  | .emptyStatement, _ => [word (.mark .semicolon)]
  | .ifStatement, cond :: branches =>
    word (.keyword .ifWord) :: word (.mark .openParen) :: child cond ::
      word (.mark .closeParen) :: branches.map child
  | .elseClause, cs => word (.keyword .elseWord) :: cs.map child
  | .whileStatement, cond :: body =>
    word (.keyword .whileWord) :: word (.mark .openParen) :: child cond ::
      word (.mark .closeParen) :: body.map child
  | .forStatement, init :: cond :: step :: body =>
    word (.keyword .forWord) :: word (.mark .openParen) :: child init ::
      word (.mark .semicolon) :: child cond :: word (.mark .semicolon) :: child step ::
        word (.mark .closeParen) :: body.map child
  | .returnStatement, cs =>
    word (.keyword .returnWord) :: (cs.map child ++ [word (.mark .semicolon)])
  | .assignment op, [target, value] => [child target, own (.mark op.mark), child value]
  | .binary op, [left, right] => [child left, own (.mark op.mark), child right]
  | .prefixUnary op, cs => own (.mark op.mark) :: cs.map child
  | .postfixUnary op, cs => cs.map child ++ [own (.mark op.mark)]
  | .identifier name, _ => [own (.name name.toList)]
  | .literal value, _ => [own value.lexeme]
  | .parenthesized, cs =>
    word (.mark .openParen) :: (cs.map child ++ [word (.mark .closeParen)])
  | .invocation callee, cs =>
    dotted callee ++ word (.mark .openParen) :: (commas cs ++ [word (.mark .closeParen)])
  | _, cs => cs.map child

namespace Part

variable {α β : Type}

@[simp] theorem map_word (f : α → β) (l : Lexeme) : (word l).map f = word l := rfl

@[simp] theorem map_own (f : α → β) (l : Lexeme) : (own l).map f = own l := rfl

@[simp] theorem map_child (f : α → β) (a : α) : (child a).map f = child (f a) := rfl

/-- Parts that are the children of a list change with it. -/
@[simp] theorem map_comp_child (f : α → β) (cs : List α) :
    (cs.map child).map (Part.map f) = (cs.map f).map child := by
  simp [Function.comp_def]

/-- Children with commas between them change with the list. -/
theorem commas_map (f : α → β) (cs : List α) :
    commas (cs.map f) = (commas cs).map (Part.map f) := by
  induction cs using commas.induct with
  | case1 => rfl
  | case2 c => rfl
  | case3 c cs more ih =>
      obtain ⟨b, bs, rfl⟩ : ∃ b bs, cs = b :: bs := List.exists_cons_of_ne_nil more
      simp only [List.map_cons, commas] at ih ⊢
      rw [ih]
      rfl

/-- Children in braces change with the list. -/
theorem braced_map (f : α → β) (cs : List α) :
    braced (cs.map f) = (braced cs).map (Part.map f) := by
  simp [braced, Function.comp_def]

/-- A dotted name has no child to change. -/
theorem dotted_map (f : α → β) (path : String) :
    (dotted path).map (Part.map f) = dotted path := by
  simp [dotted, Function.comp_def]

/-- Modifiers have no child to change. -/
theorem modifiers_map (f : α → β) (ms : List Modifier) :
    (modifiers ms).map (Part.map f) = modifiers ms := by
  simp [modifiers, Function.comp_def]

/-- The words of parts in a row are the words of both. -/
theorem lexemes_append (ps qs : List (Part α)) :
    lexemes (ps ++ qs) = lexemes ps ++ lexemes qs := by
  induction ps using lexemes.induct <;> simp_all [lexemes]

/-- The children of parts in a row are the children of both. -/
theorem children_append (ps qs : List (Part α)) :
    children (ps ++ qs) = children ps ++ children qs := by
  induction ps using children.induct <;> simp_all [children]

@[simp] theorem children_child (cs : List α) : children (cs.map child) = cs := by
  induction cs with
  | nil => rfl
  | cons c cs ih => rw [List.map_cons, children, ih]

@[simp] theorem children_commas (cs : List α) : children (commas cs) = cs := by
  induction cs using commas.induct with
  | case1 => rfl
  | case2 c => rfl
  | case3 c cs more ih => rw [commas, children, children, ih]; exact more

@[simp] theorem children_braced (cs : List α) : children (braced cs) = cs := by
  simp [braced, children, children_append]

@[simp] theorem children_dotted (path : String) : children (dotted (α := α) path) = [] := by
  rw [dotted]
  induction Lexeme.dotted path with
  | nil => rfl
  | cons l ls ih => rw [List.map_cons, children, ih]

/-- Modifiers have no children. -/
@[simp] theorem children_modifiers (ms : List Modifier) :
    children (modifiers (α := α) ms) = [] := by
  induction ms with
  | nil => rfl
  | cons m ms ih => exact ih

end Part

/-- A phrase does not look at its children. -/
theorem Kind.phrase_map {α β : Type} (f : α → β) (k : Kind) (cs : List α) :
    k.phrase (cs.map f) = (k.phrase cs).map (Part.map f) := by
  cases k with
  | methodDecl name ms type =>
      have last : (cs.map f).getLast?.toList.map Part.child
          = (cs.getLast?.toList.map Part.child).map (Part.map f) := by
        rw [List.getLast?_map, Option.toList_map, Part.map_comp_child]
      simp only [phrase, List.map_append, List.map_cons, Part.modifiers_map, Part.map_word,
        ← Part.commas_map, List.map_dropLast, last]
  | variableDeclarator name => cases cs <;> simp [phrase, Function.comp_def]
  | ifStatement => cases cs <;> simp [phrase, Function.comp_def]
  | whileStatement => cases cs <;> simp [phrase, Function.comp_def]
  | forStatement => rcases cs with _ | ⟨_, _ | ⟨_, _ | ⟨_, _⟩⟩⟩ <;> simp [phrase, Function.comp_def]
  | assignment op => rcases cs with _ | ⟨_, _ | ⟨_, _ | ⟨_, _⟩⟩⟩ <;> simp [phrase, Function.comp_def]
  | binary op => rcases cs with _ | ⟨_, _ | ⟨_, _ | ⟨_, _⟩⟩⟩ <;> simp [phrase, Function.comp_def]
  | _ =>
      simp [phrase, Part.modifiers_map, Part.commas_map, Part.braced_map, Part.dotted_map,
        Function.comp_def]

/-- The symbols of the grammar. -/
inductive Symbol where
  | unit
  | usingDirective
  /-- A class, or outside of namespaces a namespace. -/
  | declaration (inNamespace : Bool)
  | member
  | parameter
  | variableDeclaration
  | variableDeclarator
  /-- A block that is the body of a method. -/
  | body
  /-- A statement; an `else` may follow a closed one. -/
  | statement (closed : Bool)
  | elseClause (closed : Bool)
  /-- An expression that binds at least as tightly as a level. -/
  | expression (level : Nat)
deriving DecidableEq

open SharpMutants.Symbol in
/-- `Rule s k ss`: a node of kind `k` with children of the symbols `ss` is one of `s`. -/
inductive Rule : Symbol → Kind → List Symbol → Prop
  | compilationUnit (directives declarations : Nat) :
      Rule unit .compilationUnit
        (.replicate directives usingDirective ++ .replicate declarations (declaration false))
  | usingDirective (path : String) : Rule usingDirective (.usingDirective path) []
  | namespaceDecl (path : String) (classes : Nat) :
      Rule (declaration false) (.namespaceDecl path) (.replicate classes (declaration true))
  | classDecl (inNamespace : Bool) (name : String) (ms : List Modifier) (members : Nat) :
      Rule (declaration inNamespace) (.classDecl name ms) (.replicate members member)
  | fieldDecl (ms : List Modifier) : Rule member (.fieldDecl ms) [variableDeclaration]
  | methodDecl (name : String) (ms : List Modifier) (type : TypeName) (parameters : Nat) :
      Rule member (.methodDecl name ms type) (.replicate parameters parameter ++ [body])
  | parameter (name : String) {type : TypeName} (value : type ≠ .void) :
      Rule parameter (.parameter name type) []
  | body (statements : Nat) : Rule body .block (.replicate statements (statement false))
  | block (closed : Bool) (statements : Nat) :
      Rule (statement closed) .block (.replicate statements (statement false))
  | localDeclaration (closed : Bool) :
      Rule (statement closed) .localDeclaration [variableDeclaration]
  | variableDeclaration {type : TypeName} (value : type ≠ .void) (more : Nat) :
      Rule variableDeclaration (.variableDeclaration type)
        (.replicate (more + 1) variableDeclarator)
  | uninitialized (name : String) : Rule variableDeclarator (.variableDeclarator name) []
  | initialized (name : String) :
      Rule variableDeclarator (.variableDeclarator name) [expression 0]
  | expressionStatement (closed : Bool) :
      Rule (statement closed) .expressionStatement [expression 0]
  | emptyStatement (closed : Bool) : Rule (statement closed) .emptyStatement []
  | ifThen : Rule (statement false) .ifStatement [expression 0, statement false]
  | ifElse (closed : Bool) :
      Rule (statement closed) .ifStatement [expression 0, statement true, elseClause closed]
  | elseClause (closed : Bool) : Rule (elseClause closed) .elseClause [statement closed]
  | whileStatement (closed : Bool) :
      Rule (statement closed) .whileStatement [expression 0, statement closed]
  | forDeclaration (closed : Bool) :
      Rule (statement closed) .forStatement
        [variableDeclaration, expression 0, expression 0, statement closed]
  | forExpression (closed : Bool) :
      Rule (statement closed) .forStatement
        [expression 0, expression 0, expression 0, statement closed]
  | returnNothing (closed : Bool) : Rule (statement closed) .returnStatement []
  | returnValue (closed : Bool) : Rule (statement closed) .returnStatement [expression 0]
  | assignment (op : AssignOp) :
      Rule (expression 0) (.assignment op) [expression 1, expression 0]
  | binary {level : Nat} (op : BinaryOp) (reached : level ≤ op.precedence) :
      Rule (expression level) (.binary op)
        [expression op.precedence, expression (op.precedence + 1)]
  | prefixUnary {level : Nat} (op : UnaryOp) (reached : level ≤ 7) :
      Rule (expression level) (.prefixUnary op) [expression 7]
  | postfixUnary {level : Nat} {op : UnaryOp} (step : op.isStep) (reached : level ≤ 8) :
      Rule (expression level) (.postfixUnary op) [expression 8]
  | identifier {level : Nat} (name : String) (reached : level ≤ 9) :
      Rule (expression level) (.identifier name) []
  | literal {level : Nat} (value : Literal) (reached : level ≤ 9) :
      Rule (expression level) (.literal value) []
  | parenthesized {level : Nat} (reached : level ≤ 9) :
      Rule (expression level) .parenthesized [expression 0]
  | invocation {level : Nat} (callee : String) (args : Nat) (reached : level ≤ 9) :
      Rule (expression level) (.invocation callee) (.replicate args (expression 0))

/-- The words of a phrase are spelled as their classes ask. -/
def Part.Spelled {α : Type} (parts : List (Part α)) : Prop :=
  ∀ l ∈ Part.lexemes parts, l.WellSpelled

/-- A tree is derived from a symbol: every node is an instance of a rule, with well spelled
words. -/
inductive Conforms : Symbol → Tree → Prop
  | node {s : Symbol} {d : Node} {ss : List Symbol} {cs : List Tree} (rule : Rule s d.kind ss)
      (spelled : Part.Spelled (d.kind.phrase ss)) (children : List.Forall₂ Conforms ss cs) :
      Conforms s (.node d cs)

namespace Tree

/-- A tree of a whole source. -/
def Grammatical (t : Tree) : Prop := Conforms .unit t

/-- The words of a phrase whose children stand for words. -/
def words (parts : List (Part (List Lexeme))) : List Lexeme :=
  parts.flatMap fun
    | .word l | .own l => [l]
    | .child ls => ls

mutual

/-- The sequence of words that a tree stands for. -/
def yield : Tree → List Lexeme
  | node d cs => words (d.kind.phrase (yields cs))

/-- The yields of the trees of a list. -/
def yields : List Tree → List (List Lexeme)
  | [] => []
  | c :: cs => c.yield :: yields cs

end

end Tree

end SharpMutants
