import WikiTidy.Text.Order

/-!
# Regular expressions with a look ahead

Names are matched by their 16-bit code units: a character above U+FFFF counts as two. `ends r s`
are the texts that can be left when `r` has read a first part of `s`. An expression accepts a text
if nothing may be left. Looking ahead reads nothing: it tests what is left.
-/

namespace WikiTidy.Glob

/-- A regular expression. -/
inductive Regular where
  /-- One unit of a class. -/
  | one (accepts : Nat → Bool)
  /-- Nothing. -/
  | empty
  /-- No text at all. -/
  | never
  /-- The end of the text. -/
  | atEnd
  | both (first second : Regular)
  | either (first second : Regular)
  | many (body : Regular)
  /-- Nothing, where the expression reads something. -/
  | ahead (r : Regular)
  /-- Nothing, where the expression reads nothing. -/
  | notAhead (r : Regular)

namespace Regular

/-- Adds the texts that are not there yet. -/
def addNew (seen more : List (List Nat)) : List (List Nat) :=
  more.foldl (fun seen s => if seen.contains s then seen else seen ++ [s]) seen

/-- What can be left after any number of repetitions, at most `rounds` of which read anything. -/
def repeated (body : List Nat → List (List Nat)) : Nat → List (List Nat) → List (List Nat)
  | 0, reached => reached
  | rounds + 1, reached =>
    let next := addNew reached (reached.flatMap body)
    if next.length = reached.length then reached else repeated body rounds next

/-- The texts that can be left when an expression has read a first part. -/
def ends : Regular → List Nat → List (List Nat)
  | one accepts, s =>
    match s with
    | c :: rest => if accepts c then [rest] else []
    | [] => []
  | empty, s => [s]
  | never, _ => []
  | atEnd, s => if s.isEmpty then [s] else []
  | both a b, s => addNew [] ((a.ends s).flatMap b.ends)
  | either a b, s => addNew (a.ends s) (b.ends s)
  | many body, s => repeated body.ends (s.length + 1) [s]
  | ahead r, s => if (r.ends s).isEmpty then [] else [s]
  | notAhead r, s => if (r.ends s).isEmpty then [s] else []

/-- The expression reads the whole text. -/
def accepts (r : Regular) (s : Text) : Bool := (r.ends (Text.units s)).contains []

/-! ## Composed expressions -/

/-- One expression after another. -/
def all (rs : List Regular) : Regular := rs.foldr both empty

/-- One of several expressions. -/
def any : List Regular → Regular
  | [] => never
  | [r] => r
  | r :: rs => either r (any rs)

/-- An expression or nothing. -/
def optional (r : Regular) : Regular := either r empty

/-- An expression at least once. -/
def once (r : Regular) : Regular := both r (many r)

/-- A certain text. -/
def word (s : Text) : Regular := all ((Text.units s).map fun unit => one (· == unit))

/-- One certain character. -/
def char (c : Char) : Regular := word [c]

end Regular

end WikiTidy.Glob
