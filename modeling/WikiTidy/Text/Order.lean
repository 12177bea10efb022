import WikiTidy.Text.Basic

/-!
# The order of names

Names of pages are sorted by their 16-bit code units. A character above U+FFFF is written as two
units that lie below U+E000, so it stands before the last characters of the basic plane; the order
of code points would put it behind them.

`sortBy` is an insertion sort: each element goes before the first one that it is strictly before,
so elements that are not told apart keep their order.
-/

namespace WikiTidy.Text

/-- The 16-bit code units of a character. -/
def charUnits (c : Char) : List Nat :=
  let n := c.toNat
  if n < 0x10000 then [n]
  else [0xD800 + (n - 0x10000) / 0x400, 0xDC00 + (n - 0x10000) % 0x400]

/-- The 16-bit code units of a text. -/
def units (s : Text) : List Nat := s.flatMap charUnits

/-- A list stands strictly before another one in the order of a dictionary. -/
def dictionaryLt : List Nat → List Nat → Bool
  | _, [] => false
  | [], _ :: _ => true
  | a :: as, b :: bs => a < b || (a == b && dictionaryLt as bs)

/-- A text stands strictly before another one, by their code units. -/
def before (a b : Text) : Bool := dictionaryLt (units a) (units b)

/-- A text stands strictly before another one, by their characters. -/
def beforeByChar (a b : Text) : Bool := dictionaryLt (a.map Char.toNat) (b.map Char.toNat)

end WikiTidy.Text

namespace WikiTidy

variable {α : Type}

/-- Puts an element before the first one that it is strictly before. -/
def insertBy (lt : α → α → Bool) (a : α) : List α → List α
  | [] => [a]
  | b :: bs => if lt a b then a :: b :: bs else b :: insertBy lt a bs

/-- The elements in order, those that are not told apart in the order they came in. -/
def sortBy (lt : α → α → Bool) (as : List α) : List α :=
  as.foldl (fun sorted a => insertBy lt a sorted) []

theorem insertBy_perm (lt : α → α → Bool) (a : α) (bs : List α) :
    (insertBy lt a bs).Perm (a :: bs) := by
  induction bs with
  | nil => exact .refl _
  | cons b bs ih =>
    simp only [insertBy]
    split
    · exact .refl _
    · exact (ih.cons b).trans (.swap a b bs)

theorem sortBy_perm (lt : α → α → Bool) (as : List α) : (sortBy lt as).Perm as := by
  suffices h : ∀ sorted, (as.foldl (fun sorted a => insertBy lt a sorted) sorted).Perm
      (sorted ++ as) by simpa [sortBy] using h []
  induction as with
  | nil => intro sorted; simp
  | cons a as ih =>
    intro sorted
    refine (ih _).trans ?_
    refine ((insertBy_perm lt a sorted).append_right as).trans ?_
    exact List.perm_middle.symm

/-- Sorting neither adds nor loses an element. -/
theorem mem_sortBy {lt : α → α → Bool} {a : α} {as : List α} : a ∈ sortBy lt as ↔ a ∈ as :=
  (sortBy_perm lt as).mem_iff

end WikiTidy
