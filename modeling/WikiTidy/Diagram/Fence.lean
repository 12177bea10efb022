import WikiTidy.Diagram.NodeText
import WikiTidy.Diagram.Relocate
import WikiTidy.Text.Lines

/-!
# Diagrams in a page

A line that starts with three backquotes and names the diagram language opens a diagram; the next
line that starts with three backquotes closes it, and a diagram that is never closed runs to the end
of the page. `Block.ofLines` cuts a page into such diagrams and the lines between them, and
`repairDiagrams` repairs the body of each.
-/

namespace WikiTidy.Diagram

open Text

/-- The kind of a diagram. Only the edges of flowcharts are looked at. -/
inductive Kind where
  | flowchart
  | other
deriving DecidableEq, Repr

/-- The words that open a flowchart. -/
def flowchartWords : List Text := ["flowchart", "graph"].map String.toList

/-- The kind of a diagram, told by its first line that is not blank. -/
def Kind.ofLines (lines : List Text) : Kind :=
  match lines.find? fun line => !(trim line).isEmpty with
  | none => .other
  | some first => if flowchartWords.any (startsWith · (trim first)) then .flowchart else .other

/-- Repairs the body of a diagram: the texts of its nodes, and the branch labels of a flowchart. -/
def repair (lines : List Text) : List Text :=
  let clean := cleanTexts lines
  match Kind.ofLines clean with
  | .flowchart => relocateLabels clean
  | .other => clean

/-- What a fence starts with. -/
def fence : Text := "```".toList

/-- The name of the diagram language. -/
def language : Text := "mermaid".toList

/-- The line is a fence. -/
def isFence (line : Text) : Bool := startsWith fence line

/-- The line opens a diagram. -/
def opensDiagram (line : Text) : Bool := isFence line && contains language line

/-- A stretch of a page: a line outside all diagrams, or a diagram with the fence that opens it, its
body, and the fence that closes it if there is one. -/
inductive Block where
  | line (line : Text)
  | diagram (opening : Text) (body : List Text) (closing : Option Text)
deriving DecidableEq, Repr

namespace Block

/-- Cuts lines into blocks. Within a diagram, the first argument holds the opening fence and the
body so far, last line first. -/
def scan : Option (Text × List Text) → List Text → List Block
  | none, [] => []
  | some (opening, body), [] => [.diagram opening body.reverse none]
  | none, l :: ls => if opensDiagram l then scan (some (l, [])) ls else .line l :: scan none ls
  | some (opening, body), l :: ls =>
    if isFence l then .diagram opening body.reverse (some l) :: scan none ls
    else scan (some (opening, l :: body)) ls

/-- The blocks of the lines of a page. -/
def ofLines (lines : List Text) : List Block := scan none lines

/-- The lines of a block. -/
def lines : Block → List Text
  | line l => [l]
  | diagram opening body closing => opening :: body ++ closing.toList

/-- The block with the body of its diagram changed. -/
def mapBody (f : List Text → List Text) : Block → Block
  | line l => line l
  | diagram opening body closing => diagram opening (f body) closing

/-- The lines that a scan has taken in but not yet put out. -/
def pending : Option (Text × List Text) → List Text
  | none => []
  | some (opening, body) => opening :: body.reverse

theorem lines_scan (state : Option (Text × List Text)) (ls : List Text) :
    (scan state ls).flatMap lines = pending state ++ ls := by
  induction ls generalizing state with
  | nil => cases state <;> simp [scan, pending, lines]
  | cons l ls ih =>
    cases state with
    | none => simp only [scan]; split <;> simp [ih, pending, lines]
    | some s => simp only [scan]; split <;> simp [ih, pending, lines]

/-- Cutting into blocks keeps every line. -/
theorem lines_ofLines (ls : List Text) : (ofLines ls).flatMap lines = ls := by
  simp [ofLines, lines_scan, pending]

end Block

/-- Repairs every diagram of a page. -/
def repairDiagrams (page : Text) : Text :=
  Lines.join
    ((Block.ofLines (Lines.ofText page)).flatMap fun block => (block.mapBody repair).lines) page

end WikiTidy.Diagram
