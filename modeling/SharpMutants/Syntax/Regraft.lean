import SharpMutants.Syntax.Arena

/-!
# Edits on the flat view

An edit needs no tree at hand: the nodes of the flat view are copied one by one, parents before
children, to the end of a new one.  Every node that is put out gets the number of the nodes
before it, and is made known to its parent when all below it is put out.  The first node that
has the number of the target is not copied; the graft is put out in its place, which uses the
graft up.  The kept parts of a graft go by their numbers and are copied from the old view.
-/

namespace SharpMutants

/-- A flat view without the subtrees. -/
abbrev FlatTree := Array Links

/-- The flat view without the subtrees. -/
def Arena.flat (a : Arena) : FlatTree := a.map Slot.links

/-- A graft whose kept parts go by their numbers. -/
inductive Outline where
  /-- The subtree at a node, as it stands. -/
  | kept (id : Nat)
  /-- A new node. -/
  | fresh (kind : Kind) (span token : Option Span) (trailing : Option String)
      (children : List Outline)

namespace Outline

mutual

/-- The graft over a document that an outline stands for, if all the nodes it names are there. -/
def graft? (d : Document) : Outline → Option Graft
  | kept id => (d.subtree? id).map Graft.kept
  | fresh kind span token trailing children =>
    (grafts? d children).map (Graft.fresh kind span token trailing)

/-- The grafts that the outlines of a list stand for. -/
def grafts? (d : Document) : List Outline → Option (List Graft)
  | [] => some []
  | g :: gs =>
    match g.graft? d, grafts? d gs with
    | some first, some rest => some (first :: rest)
    | _, _ => none

end

end Outline

namespace FlatTree

/-- A copy under way. -/
structure Copy where
  /-- What has been put out. -/
  out : FlatTree
  /-- The graft, until it has been put out. -/
  waiting : Option Outline

/-- Makes nodes the last children of another. -/
def adopt (out : FlatTree) (parent : Nat) (children : List Nat) : FlatTree :=
  out.modify parent fun l => { l with children := l.children ++ children }

/-- Copies a node and at most so many levels below it.  A graft that waits is put out in place of
the node with the number of the target; `emit` puts it out, given the extent of that node. -/
def copyInto (a : FlatTree) (emit : Option Nat → Span → FlatTree → Outline → FlatTree)
    (target : Nat) : Nat → Nat → Option Nat → Copy → Copy
  | 0, _, _, c => c
  | levels + 1, id, parent, c =>
    match a[id]? with
    | none => c
    | some l =>
      match if id = target then c.waiting else none with
      | some g => ⟨emit parent l.node.span c.out g, none⟩
      | none =>
        let new := c.out.size
        l.children.foldl
          (fun c child =>
            let copied := copyInto a emit target levels child (some new) c
            { copied with out := adopt copied.out new [c.out.size] })
          { c with out := c.out.push ⟨l.node, parent, []⟩ }

/-- A number that no node has, as numbers take four bytes. -/
def nowhere : Nat := 4294967295

/-- Copies a subtree. -/
def copySubtree (a : FlatTree) (id : Nat) (parent : Option Nat) (out : FlatTree) : FlatTree :=
  (a.copyInto (fun _ _ out _ => out) nowhere a.size id parent ⟨out, none⟩).out

mutual

/-- The extent of an outline: its own, else the cover of its children's. -/
def extent? (a : FlatTree) : Outline → Option Span
  | .kept id => a[id]?.map fun l => l.node.span
  | .fresh _ (some span) _ _ _ => some span
  | .fresh _ none _ _ children => extentOf? a children

/-- The cover of the extents of a list of outlines. -/
def extentOf? (a : FlatTree) : List Outline → Option Span
  | [] => none
  | g :: gs =>
    match extent? a g, extentOf? a gs with
    | some s, some s' => some (s.cover s')
    | some s, none => some s
    | none, rest => rest

end

mutual

/-- Puts out a graft in a place with the extent `anchor`. -/
def emit (a : FlatTree) (parent : Option Nat) (anchor : Span) (out : FlatTree) :
    Outline → FlatTree
  | .kept id => a.copySubtree id parent out
  | .fresh kind span token trailing children =>
    let extent := (span <|> extentOf? a children).getD anchor
    emitAll a out.size extent
      (out.push ⟨⟨kind, extent, token, span.isNone, trailing⟩, parent, []⟩) children

/-- Puts out the grafts of a list as the next children of a node. -/
def emitAll (a : FlatTree) (parent : Nat) (anchor : Span) (out : FlatTree) :
    List Outline → FlatTree
  | [] => out
  | g :: gs =>
    emitAll a parent anchor (adopt (emit a (some parent) anchor out g) parent [out.size]) gs

end

/-- The flat view with the subtree at a node swapped for a graft. -/
def regraft (a : FlatTree) (target : Nat) (g : Outline) : FlatTree :=
  (a.copyInto a.emit target a.size 0 none ⟨#[], some g⟩).out

end FlatTree

end SharpMutants
