import SharpMutants.Text.Blank
import SharpMutants.Syntax.Render
import SharpMutants.Dataflow.FlowGraph

/-!
# Flow graphs as drawings

A flow graph is drawn in the DOT language: a line for every step, numbered in the
order of the graph and labelled with its text, and a line for every edge.  A
label is one line, its blanks single spaces, and it is cut when it is too long.
-/

namespace SharpMutants

namespace Dot

/-- The longest label in characters. -/
def labelLimit : Nat := 48

/-- A text cut to the length of a label, with dots for what is missing. -/
def cut (text : Text) : Text :=
  if labelLimit < text.length then text.take (labelLimit - 3) ++ "...".toList else text

/-- The label of a text. -/
def label (text : Text) : Text := cut (Render.joined " " (Text.words text))

/-- A label inside quotes: quotes and backslashes are marked by a backslash. -/
def escape (text : Text) : Text :=
  text.flatMap fun c => if c = '"' ∨ c = '\\' then ['\\', c] else [c]

/-- The line of a step. -/
def nodeLine (index : Nat) (text : Text) : String :=
  "    " ++ toString index ++ " [ label = \"" ++ String.ofList (escape (label text)) ++ "\" ]\n"

/-- The line of an edge. -/
def edgeLine (source target : Nat) : String :=
  "    " ++ toString source ++ " -> " ++ toString target ++ " [ ]\n"

end Dot

namespace FlowGraph

/-- The place of the entry among the nodes. -/
def entryIndex? (g : FlowGraph) : Option Nat := g.entry.bind fun n => g.nodes.idxOf? n

/-- The drawing of a graph whose steps have the given texts. -/
def dot (g : FlowGraph) (text : Nat → Text) : String :=
  "digraph \x7b\n" ++
    String.join (g.nodes.zipIdx.map fun (n, i) => Dot.nodeLine i (text n)) ++
    String.join (g.edges.map fun (a, b) => Dot.edgeLine (g.nodes.idxOf a) (g.nodes.idxOf b)) ++
    "\x7d\n"

end FlowGraph

end SharpMutants
