import WikiTidy.Path
import WikiTidy.Text.Order

/-!
# Places in a file system

A place is the list of names that lead to it from the root. `resolve` takes a path from a working
folder, `descend` takes one below a folder whatever it starts with, and `relative` is the path from
one place to another.
-/

namespace WikiTidy

/-- Where something is: the names from the root down. -/
abbrev Place := List Text

namespace Place

open Text

/-- The place of a path below a folder. -/
def descend (folder : Place) (path : Text) : Place := Path.reduce true (folder ++ split '/' path)

/-- The place of a path, taken from a working folder unless it starts at the root. -/
def resolve (folder : Place) (path : Text) : Place :=
  if Path.isRooted path then descend [] path else descend folder path

/-- The path of a place from the root. -/
def render (p : Place) : Text := '/' :: Text.join ['/'] p

/-- The path from one place to another; it is empty if they are the same. -/
def relative : Place → Place → Text
  | a :: fromHere, b :: toHere =>
    if a = b then relative fromHere toHere
    else Text.join ['/'] ((a :: fromHere).map (fun _ => Path.above) ++ b :: toHere)
  | fromHere, toHere => Text.join ['/'] (fromHere.map (fun _ => Path.above) ++ toHere)

/-- A place stands before another one: name by name, a folder before what is in it. -/
def before : Place → Place → Bool
  | _, [] => false
  | [], _ :: _ => true
  | a :: as, b :: bs => beforeByChar a b || (a == b && before as bs)

/-- The names that lead from a folder down to a place, if it is below the folder or the same. -/
def below? : Place → Place → Option (List Text)
  | [], p => some p
  | a :: folder, b :: p => if a = b then below? folder p else none
  | _ :: _, [] => none

theorem below?_eq_some_iff {folder p names : Place} :
    below? folder p = some names ↔ p = folder ++ names := by
  induction folder generalizing p with
  | nil => simp [below?]
  | cons a folder ih =>
    cases p with
    | nil => simp [below?]
    | cons b p => by_cases h : a = b <;> simp [below?, h, ih, eq_comm]

end Place

end WikiTidy
