import WikiTidy.Diagram.Line
import WikiTidy.Table

/-!
# The graph of a flowchart

The edges of a diagram in the order of their lines, the texts of its nodes, and the exits of each
node: the places, in the list of edges, of those that leave it. `writeEdges` writes edges back onto
the lines they came from.
-/

namespace WikiTidy.Diagram

/-- The graph that a diagram draws. -/
structure Graph where
  edges : List Edge
  /-- The text of each node that is declared; the last declaration counts. -/
  texts : Table Text Text
  /-- The edges that leave each node, by their places in `edges`. -/
  exits : Table Text (List Nat)
deriving DecidableEq, Repr

namespace Graph

/-- The exits of every node that an edge leaves. -/
def exitsOf (edges : List Edge) : Table Text (List Nat) :=
  edges.zipIdx.foldl (fun t (e, i) => t.update e.source fun places => places.getD [] ++ [i]) []

/-- The graph of the lines of a diagram. -/
def ofLines (lines : List Text) : Graph :=
  let said := Line.parseAll lines
  let edges := said.filterMap Line.edge?
  { edges, texts := Table.ofPairs (said.filterMap Line.node?), exits := exitsOf edges }

/-- The exits of a node. -/
def exitsAt (g : Graph) (node : Text) : List Nat := (g.exits.get? node).getD []

/-- The text that stands for a node: the declared one, or its name. -/
def textOf (texts : Table Text Text) (node : Text) : Text := (texts.get? node).getD node

end Graph

/-- Writes one edge onto its line. A place right behind the last line adds a line. -/
def writeEdge (lines : List Text) (e : Edge) : List Text :=
  match e.position with
  | .ofNat n => if n = lines.length then lines ++ [e.render] else lines.set n e.render
  | .negSucc _ => lines

/-- Writes the edges onto their lines, one after another. -/
def writeEdges (lines : List Text) (edges : List Edge) : List Text := edges.foldl writeEdge lines

end WikiTidy.Diagram
