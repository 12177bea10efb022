import WikiTidy.Site.Notice
import WikiTidy.Tree.RealPath

/-!
# The files of a site

All files below a folder that are reached through folders alone and whose name does not start with a
period. A symbolic link counts as the file that its real path leads to, if that is within the folder;
a link that leads nowhere, outside, or to a folder is passed over with a notice. Files that match a
pattern are left out, and the rest is sorted by path. How patterns are matched is not told here: a
predicate says which paths a pattern accepts.
-/

namespace WikiTidy.Site

/-- The name starts with a period. -/
def isHidden (name : Text) : Bool := name.head? == some '.'

/-- The last of the names that lead to a place is hidden. -/
def endsHidden (names : List Text) : Bool := names.getLast?.any isHidden

/-- The path of the names that lead to a file. -/
def pathOf (names : List Text) : Text := Text.join ['/'] names

/-- A place is within a folder. Nothing but itself is within the root of the file system. -/
def isWithin (folder p : Place) : Bool := p == folder || (!folder.isEmpty && folder.isPrefixOf p)

/-- What becomes of a symbolic link: the path of the file it counts as, or a notice, or neither. It is
`none` if working out where the link leads never ends. -/
def linkedFile (t : Tree) (folder : Place) (names : List Text) :
    Option (Option Text × List Notice) :=
  let link := folder ++ names
  let path := pathOf names
  match t.realPath folder with
  | none => none
  | some (.error failure) => some (none, [.linkBroken link failure])
  | some (.ok root) =>
    match t.realPath link with
    | none => none
    | some (.error failure) => some (none, [.linkBroken link failure])
    | some (.ok target) =>
      if !isWithin root target then some (none, [.linkOutside link path])
      else if t.isFolder target then some (none, [.linkedFolder link path])
      else some (if endsHidden names then none else some path, [])

/-- What becomes of one thing below the folder. -/
def fileOf (t : Tree) (folder : Place) (names : List Text) (e : Entry) :
    Option (Option Text × List Notice) :=
  match e with
  | .folder => some (none, [])
  | .file _ => some (if endsHidden names then none else some (pathOf names), [])
  | .link _ => linkedFile t folder names

/-- The files below a folder that no pattern excludes, and the notices about links; `none` if the
search never ends. -/
def discover (accepts : Text → Text → Bool) (t : Tree) (folder : Place) (exclude : List Text) :
    Option (Except Fault (List Text) × List Notice) :=
  match t.realFolder folder with
  | .error cause => some (.error (.folderUnreadable folder ⟨cause, .list folder⟩), [])
  | .ok real =>
    match (t.listing real).mapM fun (names, e) => fileOf t folder names e with
    | none => none
    | some found =>
      let notices := found.flatMap Prod.snd
      if exclude.contains [] then some (.error .emptyPattern, notices)
      else
        let kept := (found.filterMap Prod.fst).filter fun path => !exclude.any (accepts · path)
        some (.ok (sortBy Text.before kept), notices)

end WikiTidy.Site
