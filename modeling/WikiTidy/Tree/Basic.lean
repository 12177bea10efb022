import WikiTidy.Table
import WikiTidy.Text.Utf8
import WikiTidy.Tree.Place

/-!
# File trees

A file tree says for each place below the root what is there: a folder, a file with its content, or
a symbolic link with its target. The root is always a folder. Nothing here looks through links; that
is done by `Tree.locate`.
-/

namespace WikiTidy

/-- What is at a place. -/
inductive Entry where
  | folder
  | file (content : Utf8.Bytes)
  | link (target : Text)
deriving DecidableEq, Repr

/-- What is where, below the root. -/
structure Tree where
  entries : Table Place Entry
deriving DecidableEq, Repr

namespace Tree

/-- A tree with nothing below its root. -/
def empty : Tree := ⟨[]⟩

/-- What is at a place. -/
def get? (t : Tree) (p : Place) : Option Entry :=
  if p = [] then some .folder else t.entries.get? p

/-- Puts something at a place. -/
def put (t : Tree) (p : Place) (e : Entry) : Tree := ⟨t.entries.put p e⟩

/-- Removes what is at a place and all that is below it. -/
def erase (t : Tree) (p : Place) : Tree := ⟨t.entries.filter fun e => !p.isPrefixOf e.1⟩

/-- There is a folder at the place. -/
def isFolder (t : Tree) (p : Place) : Bool := t.get? p == some .folder

@[simp] theorem get?_put (t : Tree) (p q : Place) (e : Entry) (hq : q ≠ []) :
    (t.put p e).get? q = if p = q then some e else t.get? q := by
  simp [get?, put, hq]

/-! ## What is below a folder -/

/-- Every name but the last one leads from a folder to a folder. -/
def throughFolders (t : Tree) : Place → List Text → Bool
  | _, [] => true
  | _, [_] => true
  | here, a :: b :: names =>
    t.isFolder (here ++ [a]) && t.throughFolders (here ++ [a]) (b :: names)

/-- All that is reached from a folder through folders alone, by the names that lead there: a folder
before what is in it, and what is in one folder by its name. -/
def listing (t : Tree) (folder : Place) : List (List Text × Entry) :=
  let found := t.entries.filterMap fun (p, e) => (Place.below? folder p).map fun names => (names, e)
  sortBy (fun a b => Place.before a.1 b.1)
    (found.filter fun (names, _) => !names.isEmpty && t.throughFolders folder names)

end Tree

end WikiTidy
