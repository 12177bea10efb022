import WikiTidy.Text.Scan

/-!
# Links within the site

A page links to a repository by a path that starts at the root of the site, `/owner/repository`
with or without more behind it. Such a path is valid on the site only; `absolute` puts the origin in
front of it, in inline links `](path)` and in definitions `[name]: path` at the start of a line.
-/

namespace WikiTidy.Link

open Text

/-- The site that all paths belong to. -/
def origin : Text := "https://github.com".toList

/-- A character that may stand in the name of an owner or a repository. -/
def isNameChar (c : Char) : Bool := c != ')' && c != '/' && !isBlank c

/-- A character that may stand behind the repository in a path. -/
def isPathChar (c : Char) : Bool := c != ')' && !isBlank c

/-- A slash and a name. -/
def slashName? (s : Text) : Option (Text × Text) := do
  let s ← after? ['/'] s
  let (name, s) ← run? isNameChar s
  return ('/' :: name, s)

/-- A path `/owner/repository` and, behind a further slash, whatever belongs to it. -/
def repositoryPath? (s : Text) : Option (Text × Text) := do
  let (owner, s) ← slashName? s
  let (repository, s) ← slashName? s
  match s with
  | '/' :: more =>
    return (owner ++ repository ++ '/' :: more.takeWhile isPathChar, more.dropWhile isPathChar)
  | _ => return (owner ++ repository, s)

/-- The path of an inline link. -/
def inline : Pattern Text := fun _ s => do
  let s ← after? [']', '('] s
  let (path, s) ← repositoryPath? s
  let s ← after? [')'] s
  return (path, s)

/-- The head of a definition, `[name]:` with the blanks around it, and what follows it. -/
def definitionHead? (s : Text) : Option (Text × Text) := do
  let indent := s.takeWhile isBlank
  let s ← after? ['['] (s.dropWhile isBlank)
  let (name, s) ← run? (· != ']') s
  let s ← after? [']', ':'] s
  return (indent ++ '[' :: name ++ [']', ':'] ++ s.takeWhile isBlank, s.dropWhile isBlank)

/-- A definition at the start of a line: its head and its path. -/
def definition : Pattern (Text × Text) := fun atStart s => do
  guard atStart
  let (head, s) ← definitionHead? s
  let (path, s) ← repositoryPath? s
  return ((head, path), s)

/-- Puts the origin in front of every path of an inline link, then of every definition. -/
def absolute (page : Text) : Text :=
  replace definition (fun (head, path) => head ++ origin ++ path)
    (replace inline (fun path => [']', '('] ++ origin ++ path ++ [')']) page)

end WikiTidy.Link
