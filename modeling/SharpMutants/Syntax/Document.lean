import SharpMutants.Source
import SharpMutants.Syntax.Tree

/-!
# Documents, edits and structure

A document is a source with a syntax tree over it.  Its nodes go by their
preorder numbers.  An edit swaps the subtree at a node for a graft: a tree whose
parts are either new nodes or subtrees kept from elsewhere.  A new node without
an extent of its own is synthetic; it takes the extent of its children, or of
the place where it is put if they have none either.
-/

namespace SharpMutants

/-- A source and a tree over it. -/
structure Document where
  source : Source
  tree : Tree

/-- What is put in the place of a subtree. -/
inductive Graft where
  /-- A subtree as it stands. -/
  | kept (tree : Tree)
  /-- A new node. -/
  | fresh (kind : Kind) (span token : Option Span) (trailing : Option String)
      (children : List Graft)

namespace Graft

/-- A new node that prints in canonical form. -/
def synthetic (kind : Kind) (children : List Graft) : Graft := fresh kind none none none children

/-- A node with the place and the children of another and a kind of its own, which prints
its text at the token of the other. -/
def retoken (target : Tree) (kind : Kind) : Graft :=
  fresh kind (some target.span) target.root.token none (target.children.map kept)

/-- New parentheses around a graft. -/
def parenthesize (inner : Graft) : Graft := synthetic .parenthesized [inner]

/-- The graft with a comment after its root, or without one.  A kept subtree stays as it is. -/
def withTrailing (text : Option String) : Graft → Graft
  | kept t => kept t
  | fresh kind span token _ children => fresh kind span token text children

/-- The graft with other children.  A kept subtree stays as it is. -/
def withChildren (children : List Graft) : Graft → Graft
  | kept t => kept t
  | fresh kind span token trailing _ => fresh kind span token trailing children

/-- The kind of the root. -/
def kind : Graft → Kind
  | kept t => t.kind
  | fresh kind .. => kind

/-- Whether the root is a new node without an extent of its own. -/
def isSynthetic : Graft → Bool
  | kept t => t.root.synthetic
  | fresh _ span .. => span.isNone

mutual

/-- The extent of a graft: its own, else the cover of its children's. -/
def extent? : Graft → Option Span
  | kept t => some t.span
  | fresh _ (some span) _ _ _ => some span
  | fresh _ none _ _ children => extentOf? children

/-- The cover of the extents of a list of grafts. -/
def extentOf? : List Graft → Option Span
  | [] => none
  | g :: gs =>
    match g.extent?, extentOf? gs with
    | some s, some s' => some (s.cover s')
    | some s, none => some s
    | none, rest => rest

end

mutual

/-- The tree of a graft put in a place with the extent `anchor`. -/
def toTree (anchor : Span) : Graft → Tree
  | kept t => t
  | fresh kind span token trailing children =>
    let extent := ((span <|> extentOf? children).getD anchor)
    .node ⟨kind, extent, token, span.isNone, trailing⟩ (toTrees extent children)

/-- The trees of a list of grafts. -/
def toTrees (anchor : Span) : List Graft → List Tree
  | [] => []
  | g :: gs => g.toTree anchor :: toTrees anchor gs

end

end Graft

namespace Document

/-- The subtree at a node. -/
def subtree? (d : Document) (id : Nat) : Option Tree := d.tree.subtree? id

/-- The document with another subtree at a node. -/
def put (d : Document) (target : Nat) (new : Tree) : Document :=
  { d with tree := Tree.replaceAt new target d.tree }

/-- The document with the subtree at a node swapped for a graft.  A node that is not there
leaves the document as it is. -/
def replace (d : Document) (target : Nat) (graft : Graft) : Document :=
  match d.subtree? target with
  | none => d
  | some old => d.put target (graft.toTree old.span)

/-- Equality up to layout. -/
def sameShape (d e : Document) : Bool := d.tree.sameShape e.tree

/-- The place where a subtree begins. -/
def position (d : Document) (t : Tree) : Text.Position := d.source.positionAt t.span.start

end Document

end SharpMutants
