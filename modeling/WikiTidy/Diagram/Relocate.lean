import WikiTidy.Diagram.Branch
import WikiTidy.Diagram.Graph

/-!
# Moving branch labels

Diagrams often carry the answer to a decision on the edge that leads to the decision, where it
belongs on one of the exits. A pass goes over the edges in order and moves each such label to the
exit whose destination it fits best, or leaves it where it stands if that is not clear.

**Giver.** An edge gives its label away if the label is a branch label, the edge is the only exit
of its source, its destination has at least two exits, and the edge did not get its label in the
same pass.

**Choice** (`choose`). Of the exits without a label, a single one is taken as it is; of several, the
one with the highest score, if that is positive and no other one has it. If no score is positive,
the only one without a label is taken, if there is exactly one.

**Pass** (`Graph.relocate`). The edges after the pass and the moves in order.
-/

namespace WikiTidy.Diagram

/-- The edge at a place has no label. -/
def isUnlabelled (edges : List Edge) (i : Nat) : Bool :=
  match edges[i]? with
  | some e => e.label.isNone
  | none => false

/-- How well the destination of the edge at a place fits an answer. -/
def scoreAt (edges : List Edge) (texts : Table Text Text) (p : Polarity) (i : Nat) : Int :=
  match edges[i]? with
  | some e => score (Graph.textOf texts e.destination) p
  | none => 0

/-- The only element of a list. -/
def single? {α : Type} : List α → Option α
  | [a] => some a
  | _ => none

/-- The exit that a label should move to. -/
def choose (edges : List Edge) (texts : Table Text Text) (candidates : List Nat) (p : Polarity) :
    Option Nat :=
  match candidates with
  | [] => none
  | [i] => some i
  | _ =>
    let best := ((candidates.map (scoreAt edges texts p)).max?).getD 0
    if best ≤ 0 then single? (candidates.filter (isUnlabelled edges))
    else single? (candidates.filter fun i => scoreAt edges texts p i = best)

/-- A label that went from one edge to another. -/
structure Move where
  origin : Nat
  target : Nat
  label : Text
deriving DecidableEq, Repr

/-- Where a pass stands: the edges as they are now, the edges that got a label, and the moves. -/
structure Pass where
  edges : List Edge
  claimed : List Nat
  moves : List Move
deriving DecidableEq, Repr

/-- Gives the edge at a place another label. -/
def setLabel (edges : List Edge) (i : Nat) (label : Option Text) : List Edge :=
  edges.modify i fun e => { e with label }

namespace Graph

/-- The exit that takes the label of the edge `e` at place `i`, and the label. -/
def target? (g : Graph) (pass : Pass) (i : Nat) (e : Edge) : Option (Nat × Text) := do
  let label ← e.label
  guard (!pass.claimed.contains i)
  let p ← polarity? label
  guard ((g.exitsAt e.source).length ≤ 1)
  let exits := g.exitsAt e.destination
  guard (2 ≤ exits.length)
  let target ← choose pass.edges g.texts (exits.filter (isUnlabelled pass.edges)) p
  return (target, label)

/-- The turn of the edge at one place. -/
def turn (g : Graph) (pass : Pass) (i : Nat) : Pass :=
  match pass.edges[i]?.bind (g.target? pass i) with
  | none => pass
  | some (target, label) =>
    { edges := setLabel (setLabel pass.edges target (some label)) i none
      claimed := target :: pass.claimed
      moves := pass.moves ++ [⟨i, target, label⟩] }

/-- A pass over all edges in order. -/
def runPass (g : Graph) : Pass := (List.range g.edges.length).foldl g.turn ⟨g.edges, [], []⟩

/-- The graph after a pass, and the moves that were made. -/
def relocate (g : Graph) : Graph × List Move :=
  let pass := g.runPass
  ({ g with edges := pass.edges }, pass.moves)

end Graph

/-- Moves the branch labels of the lines of a flowchart. -/
def relocateLabels (lines : List Text) : List Text :=
  writeEdges lines (Graph.ofLines lines).relocate.1.edges

end WikiTidy.Diagram
