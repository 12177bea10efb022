import WikiTidy.Tree.Basic

/-!
# Symbolic links

`Tree.locate` goes from the root to a place name by name, and on from the target of each link that
it meets. It ends at something, or at a free place in a folder that is there, or fails with the
cause that an operation on the place would report. More than forty links on one way count as a
loop.
-/

namespace WikiTidy

/-- Why an operation on a file tree fails. -/
inductive Cause where
  | missing
  | notFolder
  | isFolder
  | taken
  | loop
  /-- What only the device knows about, by its short name and in words. -/
  | device (code description : Text)
deriving DecidableEq, Repr

/-- Where a way through links ends. -/
inductive Spot where
  | present (p : Place)
  | vacant (p : Place)
deriving DecidableEq, Repr

namespace Tree

open Text

/-- Follows names from a folder; `jump` follows what is left of them from the target of a link. -/
def walk (t : Tree) (jump : Place → List Text → Except Cause Spot) :
    Place → List Text → Except Cause Spot
  | here, [] => .ok (.present here)
  | here, name :: names =>
    if name = [] ∨ name = Path.here then t.walk jump here names
    else if name = Path.above then t.walk jump here.dropLast names
    else
      let p := here ++ [name]
      match t.get? p with
      | none => if names = [] then .ok (.vacant p) else .error .missing
      | some .folder => t.walk jump p names
      | some (.file _) => if names = [] then .ok (.present p) else .error .notFolder
      | some (.link target) =>
        jump (if Path.isRooted target then [] else here) (split '/' target ++ names)

/-- Follows names from a folder through fewer links than the first argument. -/
def follow (t : Tree) : Nat → Place → List Text → Except Cause Spot
  | 0 => fun _ _ => .error .loop
  | links + 1 => t.walk (t.follow links)

/-- The most links on one way. -/
def linkLimit : Nat := 40

/-- Where the way to a place ends. -/
def locate (t : Tree) (p : Place) : Except Cause Spot := t.follow (linkLimit + 1) [] p

/-- The place, free of links, of what is at a place. -/
def realPlace (t : Tree) (p : Place) : Except Cause Place :=
  match t.locate p with
  | .error cause => .error cause
  | .ok (.present q) => .ok q
  | .ok (.vacant _) => .error .missing

/-- Something is at a place. -/
def hasEntry (t : Tree) (p : Place) : Bool := (t.realPlace p).toBool

/-- The place, free of links, of a folder. -/
def realFolder (t : Tree) (p : Place) : Except Cause Place :=
  match t.realPlace p with
  | .error cause => .error cause
  | .ok q => if t.isFolder q then .ok q else .error .notFolder

end Tree

end WikiTidy
