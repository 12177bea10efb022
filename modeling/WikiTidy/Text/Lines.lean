import WikiTidy.Text.Basic

/-!
# Lines of a page

`ofText` cuts a page into its lines: a line feed ends a line, one carriage return before it goes
with it, and a line feed at the very end of the page does not open a further, empty line.
`join lines page` puts lines back together and ends the result with a line feed exactly when
`page` ended with one.
-/

namespace WikiTidy.Lines

open Text

/-- Drops one carriage return at the end of a line. -/
def chomp (line : Text) : Text :=
  if line.getLast? = some '\r' then line.dropLast else line

/-- Drops the last piece if it is empty. -/
def dropEmptyLast (pieces : List Text) : List Text :=
  if pieces.getLast? = some [] then pieces.dropLast else pieces

/-- The lines of a page. -/
def ofText (page : Text) : List Text := (dropEmptyLast (split '\n' page)).map chomp

/-- The page ends with a line feed. -/
def endsWithNewline (page : Text) : Bool := page.getLast? == some '\n'

/-- The lines as one text, ending with a line feed exactly when `page` does. -/
def join (lines : List Text) (page : Text) : Text :=
  Text.join ['\n'] lines ++ if endsWithNewline page then ['\n'] else []

end WikiTidy.Lines
