import WikiTidy.Text.Basic

/-!
# Searching a text for a pattern

A pattern reads one occurrence at the head of a text. `scan` looks for it from left to right: at
each place it either finds an occurrence, and goes on behind it, or passes one character by. The
outcome is the list of what was passed by and what was found, so that replacing, splitting and
counting are functions on that list.

**The pattern** is told whether a line starts at its place, which only patterns tied to the start
of a line look at. It answers with what it found and the text that follows; an occurrence is never
empty.

Main statement: `source_scan` — the pieces, printed as they were found, are the text that was
searched.
-/

namespace WikiTidy.Text

/-- A pattern: told whether a line starts here, it reads one occurrence at the head of a text. -/
abbrev Pattern (α : Type) := Bool → Text → Option (α × Text)

/-- One step of a search: a character passed by, or an occurrence with the text it covers. -/
inductive Piece (α : Type) where
  | plain (c : Char)
  | hit (found : α) (source : Text)
deriving DecidableEq, Repr

variable {α : Type}

namespace Piece

/-- The text that a piece covers. -/
def source : Piece α → Text
  | plain c => [c]
  | hit _ s => s

/-- The text of a piece when each occurrence is written by `write`. -/
def render (write : α → Text) : Piece α → Text
  | plain c => [c]
  | hit a _ => write a

/-- What was found, if the piece is an occurrence. -/
def found? : Piece α → Option α
  | plain _ => none
  | hit a _ => some a

end Piece

/-- The search from a place where a line starts or not. The second argument counts the characters
of an occurrence that are still to be passed over. -/
def scanFrom (p : Pattern α) : Bool → Nat → Text → List (Piece α)
  | _, _, [] => []
  | _, skip + 1, c :: s => scanFrom p (isLineEnd c) skip s
  | atStart, 0, c :: s =>
    match p atStart (c :: s) with
    | none => .plain c :: scanFrom p (isLineEnd c) 0 s
    | some (a, rest) =>
      let width := (c :: s).length - rest.length
      .hit a ((c :: s).take width) :: scanFrom p (isLineEnd c) (width - 1) s

/-- The search of a whole text. -/
def scan (p : Pattern α) (s : Text) : List (Piece α) := scanFrom p true 0 s

/-- Every occurrence of the pattern replaced by what `write` makes of it. -/
def replace (p : Pattern α) (write : α → Text) (s : Text) : Text :=
  (scan p s).flatMap (Piece.render write)

/-- The text between the occurrences. -/
def splitBy (p : Pattern α) (s : Text) : List Text :=
  (scan p s).foldr
    (fun piece parts => match piece, parts with
      | .plain c, part :: parts => (c :: part) :: parts
      | .plain c, [] => [[c]]
      | .hit _ _, parts => [] :: parts)
    [[]]

/-! ## The pieces make up the text -/

/-- A pattern that reads forward: it leaves a shorter text. -/
def Pattern.Consumes (p : Pattern α) : Prop :=
  ∀ b s a r, p b s = some (a, r) → r.length < s.length

theorem source_scanFrom {p : Pattern α} (hp : p.Consumes) (b : Bool) (k : Nat) (s : Text) :
    (scanFrom p b k s).flatMap Piece.source = s.drop k := by
  induction s generalizing b k with
  | nil => simp [scanFrom]
  | cons c s ih =>
    cases k with
    | succ k => simp [scanFrom, ih]
    | zero =>
      simp only [scanFrom]
      split
      · simp [Piece.source, ih]
      · next a rest h =>
        have hlt := hp _ _ _ _ h
        simp only [List.length_cons] at hlt
        obtain ⟨w, hw⟩ : ∃ w, s.length + 1 - rest.length = w + 1 :=
          ⟨s.length - rest.length, by omega⟩
        simp [Piece.source, ih, hw]

/-- **The pieces of a search, printed as they were found, are the text that was searched.** -/
theorem source_scan {p : Pattern α} (hp : p.Consumes) (s : Text) :
    (scan p s).flatMap Piece.source = s := by
  simpa [scan] using source_scanFrom hp true 0 s

end WikiTidy.Text
