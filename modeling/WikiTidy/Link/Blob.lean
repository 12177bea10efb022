import WikiTidy.Link.Anchors
import WikiTidy.Link.Site
import WikiTidy.Text.Scan

/-!
# Links to a revision

An address `https://github.com/owner/repository/blob/revision/…` names a file at a fixed revision.
`toAnchors` turns one that names a section of a readme into one that names its anchor, and
`dropRevisions` takes the revision out of every such address, so that it follows the repository.
-/

namespace WikiTidy.Link

open Text

/-- A digit of a revision. -/
def isRevisionDigit (c : Char) : Bool := isDigit c || ('a' ≤ c && c ≤ 'f')

/-- The head of an address that names a file at a revision. -/
structure Blob where
  owner : Text
  repository : Text
  revision : Text
deriving DecidableEq, Repr

namespace Blob

/-- The path segment that announces a revision. -/
def marker : Text := "/blob/".toList

/-- The address without its revision. -/
def root (b : Blob) : Text := origin ++ '/' :: b.owner ++ '/' :: b.repository

/-- The address up to the slash behind the revision. -/
def render (b : Blob) : Text := b.root ++ marker ++ b.revision ++ ['/']

/-- Reads the head of an address; a revision has seven to forty digits. -/
def read? (s : Text) : Option (Blob × Text) := do
  let s ← after? (origin ++ ['/']) s
  let (owner, s) ← run? (· != '/') s
  let s ← after? ['/'] s
  let (repository, s) ← run? (· != '/') s
  let s ← after? marker s
  let (revision, s) ← run? isRevisionDigit s
  guard (7 ≤ revision.length ∧ revision.length ≤ 40)
  let s ← after? ['/'] s
  return (⟨owner, repository, revision⟩, s)

/-- The head of an address, wherever it stands. -/
def anywhere : Pattern Blob := fun _ s => read? s

/-- An address that goes on with the name of a section. -/
def ofSection (name : Text) : Pattern Blob := fun _ s => do
  let (blob, s) ← read? s
  let s ← after? name s
  return (blob, s)

end Blob

/-- The page of a repository that sections belong to, up to the anchor. -/
def readmeAnchor : Text := "README.md#".toList

/-- Turns every address of one section into the address of its anchor. -/
def toAnchor (name anchor : Text) (page : Text) : Text :=
  replace (Blob.ofSection name) (fun blob => blob.render ++ readmeAnchor ++ anchor) page

/-- Turns the addresses of sections into addresses of their anchors, one section after another. -/
def toAnchors (anchors : Anchors) (page : Text) : Text :=
  anchors.foldl (fun page (name, anchor) => toAnchor name anchor page) page

/-- Takes the revision out of every address. -/
def dropRevisions (page : Text) : Text :=
  replace Blob.anywhere (fun blob => blob.root ++ ['/']) page

end WikiTidy.Link
