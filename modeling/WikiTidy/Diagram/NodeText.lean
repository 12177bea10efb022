import WikiTidy.Diagram.Line
import WikiTidy.Text.Scan

/-!
# Texts that a diagram cannot show

The text of a node may hold neither a list nor a link. A text with a list is replaced as a whole; in
any other text each link, written in brackets or as a bare address, is replaced by a remark.
-/

namespace WikiTidy.Diagram

open Text

/-- Stands for a text that held a list. -/
def listRemark : Text := "Unsupported markdown: list".toList

/-- Stands for a link. -/
def linkRemark : Text := "Unsupported markdown: link".toList

/-- A line break within the text of a node, `<br>` or `<br/>` with blanks before the slash. -/
def lineBreak : Pattern Unit := fun _ s => do
  let s ← after? ['<', 'b', 'r'] s
  match trimStart s with
  | '/' :: s => do
    let s ← after? ['>'] s
    return ((), s)
  | '>' :: s => return ((), s)
  | _ => none

/-- A blank stands at the head of the text. -/
def startsBlank (s : Text) : Bool := s.head?.any isBlank

/-- The text starts like an item of a list: a number and a period or a bullet, and a blank. -/
def isListItem (part : Text) : Bool :=
  match run? isDigit part with
  | some (_, s) => ((after? ['.'] s).map startsBlank).getD false
  | none =>
    match part with
    | c :: s => (c == '-' || c == '*' || c == '+') && startsBlank s
    | [] => false

/-- One of the lines of the text starts like an item of a list. -/
def hasListItem (text : Text) : Bool :=
  (splitBy lineBreak text).any fun part => isListItem (trim part)

/-- A link in brackets, `[name](address)`. -/
def bracketLink : Pattern Unit := fun _ s => do
  let s ← after? ['['] s
  let (_, s) ← run? (· != ']') s
  let s ← after? [']', '('] s
  let (_, s) ← run? (· != ')') s
  let s ← after? [')'] s
  return ((), s)

/-- The letter that makes an address a secure one may be left out. -/
def skipSecure (s : Text) : Text := (after? ['s'] s).getD s

/-- A bare address, up to the next blank. -/
def bareAddress : Pattern Unit := fun _ s => do
  let s ← after? ['h', 't', 't', 'p'] s
  let s ← after? [':', '/', '/'] (skipSecure s)
  let (_, s) ← run? (fun c => !isBlank c) s
  return ((), s)

/-- Replaces every link by the remark. -/
def dropLinks (text : Text) : Text :=
  replace bareAddress (fun _ => linkRemark) (replace bracketLink (fun _ => linkRemark) text)

/-- The text of a node as a diagram can show it. -/
def cleanText (text : Text) : Text := if hasListItem text then listRemark else dropLinks text

/-- The text of a node, wherever it stands in a line. -/
def nodeText : Pattern Text := fun _ s => nodeText? s

/-- The text of a node as it is written. -/
def renderText (text : Text) : Text := '[' :: '"' :: text ++ ['"', ']']

/-- Cleans the texts of all nodes in a line. -/
def cleanLine (line : Text) : Text :=
  replace nodeText (fun text => renderText (cleanText text)) line

/-- Cleans the texts of all nodes of a diagram. -/
def cleanTexts (lines : List Text) : List Text := lines.map cleanLine

end WikiTidy.Diagram
