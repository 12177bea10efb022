import WikiTidy.Numbering.Index
import WikiTidy.Text.Order

/-!
# Numbering the pages of a site

Each page that a readme lists gets the number of its entry in front of its name, and every link to
it follows. Readmes are asked from the deepest folder up, folders of one depth by their names, and
the first one that lists a page decides; an entry that leads to no page is passed over.

**Links** (`followLinks`). A link keeps its folders and its anchor as they are written; only the
last name of its path changes.
-/

namespace WikiTidy

/-- A page of a site, before and after normalizing. -/
structure Document where
  /-- Where the page is, from the root of the site. -/
  path : Text
  /-- Where the page goes. -/
  outputPath : Text
  content : Text
  updated : Text
deriving DecidableEq, Repr

/-- The page has another text or another place than before. -/
def Document.isChanged (d : Document) : Bool :=
  d.updated != d.content || d.outputPath != d.path

namespace Numbering

open Text

/-! ## Links to renamed pages -/

/-- A target in a link. -/
def linkTarget : Pattern Text := fun _ s => do
  let s ← after? [']', '('] s
  let (target, s) ← run? (· != ')') s
  let s ← after? [')'] s
  return (target, s)

/-- The path of a target and its anchor, which starts with a number sign. -/
def splitAnchor (target : Text) : Text × Text :=
  (target.takeWhile (· != '#'), target.dropWhile (· != '#'))

/-- The target leads to another page by a path from the folder it is in. -/
def isRelative (target : Text) : Bool :=
  !isExternal target && !startsWith ['/'] target && !(splitAnchor target).1.isEmpty

/-- A target after pages were renamed, as it stands in a page of the folder `dir`. -/
def follow (dir : Text) (renames : Table Text Text) (target : Text) : Text :=
  if isRelative target then
    let (path, anchor) := splitAnchor target
    match renames.get? (Path.join dir path) with
    | none => target
    | some new => (splitLast '/' path).1 ++ Path.leaf new ++ anchor
  else target

/-- Lets every link of a page of the folder `dir` follow the renamed pages. -/
def followLinks (dir : Text) (renames : Table Text Text) (page : Text) : Text :=
  replace linkTarget (fun target => renderTarget (follow dir renames target)) page

/-! ## Which page gets which name -/

/-- The name of a page with an index. -/
def readmeName : Text := "README.md".toList

/-- A readme is asked before another one. -/
def asksBefore (a b : Document) : Bool :=
  Path.depth b.path < Path.depth a.path
    || (Path.depth a.path == Path.depth b.path && before a.path b.path)

/-- The readmes of a site in the order in which they are asked. -/
def readmes (documents : List Document) : List Document :=
  sortBy asksBefore (documents.filter fun d => Path.leaf d.path == readmeName)

/-- What a readme says about the pages of the site: their paths and their new paths. -/
def proposals (readme : Document) : List (Text × Text) :=
  let dir := Path.folder readme.path
  (newNames readme.updated).map fun (old, new) => (Path.join dir old, Path.join dir new)

/-- The new paths of the pages that are renamed. -/
def renames (documents : List Document) : Table Text Text :=
  (((readmes documents).flatMap proposals).filter fun (old, _) =>
    documents.any fun d => d.path = old).foldl
      (fun table (old, new) => if table.has old then table else table.put old new) []

/-- Gives the last page of each path its new path. -/
def place (renames : Table Text Text) : List Document → List Document
  | [] => []
  | d :: ds =>
    let d' := match renames.get? d.path with
      | some new =>
        if ds.any fun later => later.path = d.path then d else { d with outputPath := new }
      | none => d
    d' :: place renames ds

/-- Numbers the pages of a site. -/
def number (documents : List Document) : List Document :=
  let renames := renames documents
  if renames.isEmpty then documents
  else place renames (documents.map fun d =>
    { d with updated := followLinks (Path.folder d.path) renames d.updated })

end Numbering

end WikiTidy
