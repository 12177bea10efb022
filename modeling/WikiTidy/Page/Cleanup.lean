import WikiTidy.Text.Lines
import WikiTidy.Text.Scan

/-!
# Export noise

An exported page carries three kinds of noise around its text: navigation above the first heading,
the words of a copy button behind headings, and prompt lines that offer to answer questions.
-/

namespace WikiTidy.Page

open Text

/-- The line is a heading: its first character that is not blank is a number sign. -/
def isHeading (line : Text) : Bool := startsWith ['#'] (trimStart line)

/-- Drops all lines above the first heading. A page without a heading, or that starts with one, is
left as it is, down to its line ends. -/
def dropPreamble (page : Text) : Text :=
  let lines := Lines.ofText page
  match lines.findIdx? isHeading with
  | some (above + 1) => Lines.join (lines.drop (above + 1)) page
  | _ => page

/-- What the copy button of a heading leaves in the text. -/
def copiedMarker : Text := "Link copied!".toList

/-- A copy marker with the blanks before it. -/
def copied : Pattern Unit := fun _ s =>
  (after? copiedMarker (trimStart s)).map fun rest => ((), rest)

/-- Removes every copy marker with the blanks before it. -/
def dropCopied (page : Text) : Text := replace copied (fun _ => []) page

/-- How a prompt line starts. -/
def promptStart : Text := "Ask Devin about".toList

/-- The line is a prompt. -/
def isPrompt (line : Text) : Bool := startsWith promptStart (trim line)

/-- Removes the prompt lines. -/
def dropPrompts (page : Text) : Text :=
  Lines.join ((Lines.ofText page).filter fun line => !isPrompt line) page

end WikiTidy.Page
