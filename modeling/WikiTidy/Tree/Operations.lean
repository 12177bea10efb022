import WikiTidy.Tree.Links

/-!
# Reading and changing a file tree

Each operation goes through links like the one of a file system, and gives the changed tree or the
reason why the tree does not allow it; then it has not begun. What a device does to an operation
that has begun is not told here.
-/

namespace WikiTidy.Tree

open Utf8 (Bytes)

/-- The content of the file at a place. -/
def read (t : Tree) (p : Place) : Except Cause Bytes :=
  match t.realPlace p with
  | .error cause => .error cause
  | .ok q =>
    match t.get? q with
    | some (.file content) => .ok content
    | some _ => .error .isFolder
    | none => .error .missing

/-- Why no folder can be made where something else is: at the last name the place is taken, before
it the way does not go on. -/
def blocked (names : List Text) : Cause := if names = [] then .taken else .notFolder

/-- Makes the folders that are missing on the way from a folder. -/
def makeFoldersFrom (t : Tree) (here : Place) : List Text → Except Cause Tree
  | [] => .ok t
  | name :: names =>
    let p := here ++ [name]
    match t.get? p with
    | none => (t.put p .folder).makeFoldersFrom p names
    | some .folder => t.makeFoldersFrom p names
    | some (.file _) => .error (blocked names)
    | some (.link _) =>
      match t.realPlace p with
      | .error cause => .error cause
      | .ok q => if t.isFolder q then t.makeFoldersFrom q names else .error (blocked names)

/-- Makes a folder with all folders above it that are missing. -/
def makeFolders (t : Tree) (p : Place) : Except Cause Tree := t.makeFoldersFrom [] p

/-- Writes a file, which is made if its folder is there. -/
def write (t : Tree) (p : Place) (content : Bytes) : Except Cause Tree :=
  match t.locate p with
  | .error cause => .error cause
  | .ok (.vacant q) => .ok (t.put q (.file content))
  | .ok (.present q) => if t.isFolder q then .error .isFolder else .ok (t.put q (.file content))

/-- Removes the file or the link at a place: only links on the way to it are followed. -/
def remove (t : Tree) (p : Place) : Except Cause Tree :=
  match p.getLast?, t.realFolder p.dropLast with
  | some name, .ok folder =>
    match t.get? (folder ++ [name]) with
    | none => .error .missing
    | some .folder => .error .isFolder
    | some _ => .ok (t.erase (folder ++ [name]))
  | none, _ => .error .isFolder
  | _, .error cause => .error cause

/-- Opens a file for writing and leaves something there, or takes it away again. -/
def leave (t : Tree) (p : Place) : Option Bytes → Except Cause Tree
  | some left => t.write p left
  | none =>
    match t.write p [] with
    | .error cause => .error cause
    | .ok t => t.remove p

end WikiTidy.Tree
