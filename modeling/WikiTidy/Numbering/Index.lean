import WikiTidy.Path
import WikiTidy.Table
import WikiTidy.Text.Lines
import WikiTidy.Text.Scan

/-!
# The index of a readme

A readme lists pages in items `- [title](target)`, one on a line; a target that was broken over
several lines is joined first. `entries` are the targets that lead to local pages, in order, and
`newNames` gives each of them the name with its number: two digits at least, a dash, and the old
name. A page whose name starts with two digits and a dash keeps it, and still counts.
-/

namespace WikiTidy.Numbering

open Text

/-- A target with a line feed in it, between `](` and the next closing parenthesis. -/
def brokenTarget : Pattern Text := fun _ s => do
  let s ← after? [']', '('] s
  let target := s.takeWhile (· != ')')
  guard ('\n' ∈ target)
  let s ← after? [')'] (s.dropWhile (· != ')'))
  return (target, s)

/-- A target as it is written in a link. -/
def renderTarget (target : Text) : Text := ']' :: '(' :: target ++ [')']

/-- Takes the line feeds out of every target. -/
def joinTargets (page : Text) : Text :=
  replace brokenTarget (fun target => renderTarget (target.filter (· != '\n'))) page

/-- The target of a line that is an item of an index. -/
def itemTarget? (line : Text) : Option Text := do
  let s ← after? ['-'] (trimStart line)
  let (_, s) ← run? isBlank s
  let s ← after? ['['] s
  let (_, s) ← run? (· != ']') s
  let s ← after? [']', '('] s
  let (target, s) ← run? (· != ')') s
  let s ← after? [')'] s
  guard (s.all isBlank)
  return target

/-- The target is an address on the web. -/
def isExternal (target : Text) : Bool :=
  startsWith "http://".toList target || startsWith "https://".toList target

/-- The target leads to a page of the site. -/
def isLocalPage (target : Text) : Bool := !isExternal target && Path.isPage target

/-- The targets of the items of a readme that lead to pages of the site, in order. -/
def entries (readme : Text) : List Text :=
  ((Lines.ofText (joinTargets readme)).filterMap itemTarget?).filter isLocalPage

/-- The name starts with a number. -/
def isNumbered (name : Text) : Bool :=
  match name with
  | a :: b :: '-' :: _ => isDigit a && isDigit b
  | _ => false

/-- A number with two digits at least. -/
def pad (n : Nat) : Text :=
  let digits := Nat.toDigits 10 n
  List.replicate (2 - digits.length) '0' ++ digits

/-- The path with a number in front of its last name. -/
def numbered (n : Nat) (path : Text) : Text :=
  let (dir, name) := splitLast '/' path
  dir ++ pad n ++ '-' :: name

/-- The new name of every entry of a readme that has no number yet. An entry that stands there
several times gets the number of its last place. -/
def newNames (readme : Text) : Table Text Text :=
  Table.ofPairs (((entries readme).zipIdx.filter fun (target, _) =>
    !isNumbered (splitLast '/' target).2).map fun (target, i) => (target, numbered (i + 1) target))

end WikiTidy.Numbering
