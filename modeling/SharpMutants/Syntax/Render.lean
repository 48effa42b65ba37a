import SharpMutants.Syntax.Arena

/-!
# Printing trees

A node read from the source prints the source text between and around its
children, so blanks and comments survive; where its own token lies in such a
gap, the token prints from the kind of the node.  A synthetic node prints in
canonical form.  Either way a comment may follow.

The key local facts are `render_node`, `weave_nil` and `weave_cons`: the text of a
node from the texts of its children.
-/

namespace SharpMutants

namespace Render

/-- The texts with a separator between neighbours. -/
def joined (separator : String) : List Text → Text
  | [] => []
  | [text] => text
  | text :: rest => text ++ separator.toList ++ joined separator rest

/-- Modifiers, each with a space after it. -/
def modifiers (ms : List Modifier) : Text := ms.flatMap fun m => m.keyword.toList ++ [' ']

/-- Text in braces, with a space inside of each. -/
def braced (inner : Text) : Text := "\x7b ".toList ++ inner ++ " \x7d".toList

/-- The canonical form of a node, given the texts of its children. -/
def canonical (kind : Kind) (parts : List Text) : Text :=
  match kind with
  | .compilationUnit => joined "\n" parts
  | .usingDirective path => "using ".toList ++ path.toList ++ [';']
  | .namespaceDecl name => "namespace ".toList ++ name.toList ++ [' '] ++ braced (joined " " parts)
  | .classDecl name ms =>
    modifiers ms ++ "class ".toList ++ name.toList ++ [' '] ++ braced (joined " " parts)
  | .fieldDecl ms => modifiers ms ++ joined " " parts ++ [';']
  | .methodDecl name ms type =>
    modifiers ms ++ type.keyword.toList ++ [' '] ++ name.toList ++ ['('] ++
      joined ", " parts.dropLast ++ ") ".toList ++ parts.getLast?.getD []
  | .parameter name type => type.keyword.toList ++ [' '] ++ name.toList
  | .block => if parts.isEmpty then "\x7b \x7d".toList else braced (joined " " parts)
  | .localDeclaration | .expressionStatement => parts.flatten ++ [';']
  | .variableDeclaration type => type.keyword.toList ++ [' '] ++ joined ", " parts
  | .variableDeclarator name =>
    name.toList ++
      match parts with
      | [] => []
      | init :: _ => " = ".toList ++ init
  | .emptyStatement => [';']
  | .ifStatement => "if (".toList ++ parts.head?.getD [] ++ ") ".toList ++ joined " " parts.tail
  | .elseClause => "else ".toList ++ parts.flatten
  | .whileStatement =>
    "while (".toList ++ parts.head?.getD [] ++ ") ".toList ++ parts.tail.flatten
  | .forStatement =>
    "for (".toList ++ joined "; " (parts.take 3) ++ ") ".toList ++ (parts.drop 3).flatten
  | .returnStatement => "return".toList ++ parts.flatMap (' ' :: ·) ++ [';']
  | .assignment op => joined (" " ++ op.symbol ++ " ") parts
  | .binary op => joined (" " ++ op.symbol ++ " ") parts
  | .prefixUnary op => op.symbol.toList ++ parts.flatten
  | .postfixUnary op => parts.flatten ++ op.symbol.toList
  | .identifier name => name.toList
  | .literal value => value.text.toList
  | .parenthesized => ['('] ++ parts.flatten ++ [')']
  | .invocation callee => callee.toList ++ ['('] ++ joined ", " parts ++ [')']

/-- The source between two offsets, with the token of the node printed from its kind if it
lies there. -/
def gap (source : Source) (d : Node) (start stop : Nat) : Text :=
  match d.token, d.kind.tokenText? with
  | some token, some text =>
    if start ≤ token.start ∧ token.stop ≤ stop then
      source.slice start token.start ++ text.toList ++ source.slice token.stop stop
    else source.slice start stop
  | _, _ => source.slice start stop

/-- The gap between two offsets unless the second lies before the first. -/
def gapForward (source : Source) (d : Node) (start stop : Nat) : Text :=
  if start ≤ stop then gap source d start stop else []

/-- The comment after a node. -/
def comment : Option String → Text
  | none => []
  | some text => " /* ".toList ++ text.toList ++ " */".toList

@[simp] theorem comment_none : comment none = [] := rfl

end Render

namespace Tree

mutual

/-- The text of a tree over a source, and then further text. -/
def renderThen (source : Source) (rest : Text) : Tree → Text
  | node d cs =>
    let after := Render.comment d.trailing ++ rest
    if d.synthetic then Render.canonical d.kind (renderParts source cs) ++ after
    else weaveThen source d after d.span.start cs

/-- The texts of the children of a node from an offset on, each after the gap before it, the
gap after the last, and then further text. -/
def weaveThen (source : Source) (d : Node) (rest : Text) (cursor : Nat) : List Tree → Text
  | [] => Render.gapForward source d cursor d.span.stop ++ rest
  | c :: cs =>
    Render.gapForward source d cursor c.span.start ++
      c.renderThen source (weaveThen source d rest (max cursor c.span.stop) cs)

/-- The texts of the trees of a list. -/
def renderParts (source : Source) : List Tree → List Text
  | [] => []
  | c :: cs => c.renderThen source [] :: renderParts source cs

end

/-- The text of a tree over a source. -/
def render (source : Source) (t : Tree) : Text := t.renderThen source []

/-- The texts of the children of a node from an offset on, each after the gap before it, and
the gap after the last. -/
def weave (source : Source) (d : Node) (cursor : Nat) (cs : List Tree) : Text :=
  weaveThen source d [] cursor cs

mutual

/-- A tree that is printed in front of a text is printed in front. -/
theorem renderThen_eq (source : Source) : ∀ (rest : Text) (t : Tree),
    t.renderThen source rest = t.render source ++ rest
  | rest, node d cs => by
    simp only [render, renderThen, List.append_nil]
    split
    · rw [List.append_assoc]
    · rw [weaveThen_eq source d _ _ cs, weaveThen_eq source d (Render.comment d.trailing) _ cs,
        List.append_assoc]

/-- Children that are printed in front of a text are printed in front. -/
theorem weaveThen_eq (source : Source) (d : Node) : ∀ (rest : Text) (cursor : Nat)
    (cs : List Tree), weaveThen source d rest cursor cs = weave source d cursor cs ++ rest
  | rest, cursor, [] => by rw [weave, weaveThen, weaveThen, List.append_nil]
  | rest, cursor, c :: cs => by
    rw [weave, weaveThen, weaveThen, renderThen_eq source _ c, renderThen_eq source _ c,
      weaveThen_eq source d rest _ cs, weaveThen_eq source d [] _ cs, List.append_nil,
      List.append_assoc, List.append_assoc]

end

/-- Trees in a row are each printed. -/
theorem renderParts_eq (source : Source) (cs : List Tree) :
    renderParts source cs = cs.map (render source) := by
  induction cs with
  | nil => rw [renderParts, List.map_nil]
  | cons c cs ih => rw [renderParts, ih, List.map_cons, render]

/-- A synthetic node prints in canonical form, any other one between the gaps of the source;
the comment comes last. -/
theorem render_node (source : Source) (d : Node) (cs : List Tree) :
    (node d cs).render source =
      (if d.synthetic then Render.canonical d.kind (cs.map (render source))
        else weave source d d.span.start cs) ++ Render.comment d.trailing := by
  simp only [render, renderThen, List.append_nil, renderParts_eq]
  split
  · rfl
  · rw [weaveThen_eq]

/-- Behind the last child a node prints what is left of it. -/
theorem weave_nil (source : Source) (d : Node) (cursor : Nat) :
    weave source d cursor [] = Render.gapForward source d cursor d.span.stop := by
  rw [weave, weaveThen, List.append_nil]

/-- Before each child a node prints the gap. -/
theorem weave_cons (source : Source) (d : Node) (cursor : Nat) (c : Tree) (cs : List Tree) :
    weave source d cursor (c :: cs) =
      Render.gapForward source d cursor c.span.start ++ c.render source ++
        weave source d (max cursor c.span.stop) cs := by
  rw [weave, weaveThen, renderThen_eq, ← weave, List.append_assoc]

end Tree

namespace Document

/-- The text of a document. -/
def render (d : Document) : Text := d.tree.render d.source

/-- The text of the subtree at a node; empty if there is none. -/
def renderAt (d : Document) (id : Nat) : Text :=
  match d.subtree? id with
  | some t => t.render d.source
  | none => []

end Document

namespace Arena

/-- The text of the subtree at a node over a source; empty if there is none. -/
def renderAt (a : Arena) (source : Source) (id : Nat) : Text :=
  match a.subtree? id with
  | some t => t.render source
  | none => []

/-- A node is printed the same in the flat view and in the document. -/
theorem renderAt_arena (d : Document) (id : Nat) :
    renderAt d.arena d.source id = d.renderAt id := by
  rw [renderAt, Document.arena, subtree?_arena, Document.renderAt, Document.subtree?]

end Arena

end SharpMutants
