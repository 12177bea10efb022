import WikiTidy.Diagram.Edge

/-!
# Lines of a diagram

A line of a diagram states an edge, or declares the text of a node, `name["text"]` with anything
behind it, or says something else. A line that states an edge is no declaration.
-/

namespace WikiTidy.Diagram

open Text

/-- Reads up to the first `"]`, which must come before the line ends. -/
def quoted? : Text → Option (Text × Text)
  | [] => none
  | '"' :: ']' :: s => some ([], s)
  | c :: s => if isLineEnd c then none else (quoted? s).map fun (text, rest) => (c :: text, rest)

/-- The text of a node, `["text"]`. -/
def nodeText? (s : Text) : Option (Text × Text) := do
  let s ← after? ['[', '"'] s
  quoted? s

/-- One line of a diagram. -/
inductive Line where
  | edge (edge : Edge)
  | node (position : Int) (id : Text) (text : Text)
  | other (position : Int) (raw : Text)
deriving DecidableEq, Repr

/-- Reads a line that declares the text of a node. -/
def declaration? (line : Text) : Option (Text × Text) := do
  let (id, s) ← run? isWordChar (trimStart line)
  let (text, _) ← nodeText? (trimStart s)
  return (id, text)

namespace Line

/-- What a line says. -/
def parse (line : Text) (position : Int) : Line :=
  match Edge.parse line position with
  | some e => .edge e
  | none =>
    match declaration? line with
    | some (id, text) => .node position id text
    | none => .other position line

/-- What the lines of a diagram say, in order. -/
def parseAll (lines : List Text) : List Line :=
  lines.zipIdx.map fun (line, i) => parse line i

/-- The place of the line in its diagram. -/
def position : Line → Int
  | edge e => e.position
  | node p _ _ => p
  | other p _ => p

/-- The edge that the line states. -/
def edge? : Line → Option Edge
  | edge e => some e
  | _ => none

/-- The node that the line declares, with its text. -/
def node? : Line → Option (Text × Text)
  | node _ id text => some (id, text)
  | _ => none

end Line

end WikiTidy.Diagram
