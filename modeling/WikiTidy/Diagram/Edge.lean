import WikiTidy.Text.Basic

/-!
# Edges of a flowchart

An edge is written on a line of its own: blanks, the node it leaves, an arrow, perhaps a label
between `|"` and `"|`, and the node it enters, with blanks between the parts and at the end.
`Edge.parse` reads such a line; `Edge.render` writes an edge with one space before the arrow and one
after the arrow or the label.
-/

namespace WikiTidy.Diagram

open Text

/-- A connection between two nodes, as one line of a diagram states it. -/
structure Edge where
  /-- The place of the line in its diagram. -/
  position : Int
  /-- The blanks the line starts with. -/
  indent : Text
  source : Text
  destination : Text
  /-- The arrow as it is written: dashes, dots and equals signs up to a greater-than sign. -/
  arrow : Text
  label : Option Text
deriving DecidableEq, Repr

/-- A character of the shaft of an arrow. -/
def isShaft (c : Char) : Bool := c == '-' || c == '.' || c == '='

/-- An arrow: a shaft and its head. -/
def arrow? (s : Text) : Option (Text × Text) := do
  let (shaft, s) ← run? isShaft s
  let s ← after? ['>'] s
  return (shaft ++ ['>'], s)

/-- The label of an edge with the blanks behind it, or nothing if no bar stands here. -/
def label? (s : Text) : Option (Option Text × Text) :=
  match s with
  | '|' :: s => do
    let s ← after? ['"'] s
    let s' ← after? ['"', '|'] (s.dropWhile (· != '"'))
    return (some (s.takeWhile (· != '"')), trimStart s')
  | s => some (none, s)

namespace Edge

/-- Reads a line that states an edge. -/
def parse (line : Text) (position : Int) : Option Edge := do
  let indent := line.takeWhile isBlank
  let (source, s) ← run? isWordChar (line.dropWhile isBlank)
  let (arrow, s) ← arrow? (trimStart s)
  let (label, s) ← label? (trimStart s)
  let (destination, s) ← run? isWordChar s
  guard (s.all isBlank)
  return { position, indent, source, destination, arrow, label }

/-- The label of an edge as it is written. -/
def renderLabel : Option Text → Text
  | none => []
  | some label => '|' :: '"' :: label ++ ['"', '|']

/-- Writes an edge as a line. -/
def render (e : Edge) : Text :=
  e.indent ++ e.source ++ ' ' :: e.arrow ++ renderLabel e.label ++ ' ' :: e.destination

end Edge

end WikiTidy.Diagram
