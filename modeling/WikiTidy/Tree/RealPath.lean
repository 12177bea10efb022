import WikiTidy.Tree.Failure

/-!
# Real paths

`Tree.realPath` turns the path of a place into one without links. It replaces a link by its target
as a text: the target is taken from the folder of the link and reduced, so that a `..` in it takes
back the name before it, even if that is the name of a link. `Tree.realPlace` goes up from where
that link leads instead, and so the two can end at different places. Before a link is replaced it is
asked whether it leads anywhere at all; the path after that may still lead nowhere, or come back to
the same link again and again and never end.
-/

namespace WikiTidy.Tree

/-- Puts names behind a real path and replaces the links that appear; `jump` gives the real path of
what a link is replaced by. -/
def replaceLinks (t : Tree) (jump : Place → Option (Except Failure Place)) :
    Place → List Text → Option (Except Failure Place)
  | here, [] => some (.ok here)
  | here, name :: names =>
    let p := here ++ [name]
    match t.get? p with
    | none => some (.error ⟨if t.isFolder here then .missing else .notFolder, .look p⟩)
    | some (.link target) =>
      match t.realPlace p with
      | .error cause => some (.error ⟨cause, .status p⟩)
      | .ok _ =>
        match jump (Place.resolve here target) with
        | some (.ok q) => t.replaceLinks jump q names
        | failed => failed
    | some _ => t.replaceLinks jump p names

/-- The real path of a place if fewer links than `depth` are replaced within one another. -/
def realPathWithin (t : Tree) : Nat → Place → Option (Except Failure Place)
  | 0, _ => none
  | depth + 1, p => t.replaceLinks (t.realPathWithin depth) [] p

/-- The real path of a place, or the failure that it ends with. It is `none` if it never ends: where
more links are within one another than there are, one is within itself. -/
def realPath (t : Tree) (p : Place) : Option (Except Failure Place) :=
  t.realPathWithin (t.entries.length + 1) p

end WikiTidy.Tree
