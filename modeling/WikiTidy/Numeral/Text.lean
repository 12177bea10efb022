import WikiTidy.Numeral.Binary
import WikiTidy.Text.Basic

/-!
# Texts of numbers

`canonical? s` reads a text as a number and writes the number in its canonical form; a text that is
no finite number has none.

**Reading.** Blanks at both ends do not count, and nothing between them is zero. A number is written
with decimal digits, perhaps a point and an exponent, and perhaps a sign; or, without a sign, with
the digits of base 16, 8 or 2 behind `0x`, `0o` or `0b`.

**Writing.** The fewest digits that read back. The point is among them, or zeros stand for it, from
10⁻⁶ up to 10²¹; other numbers have one digit before the point and an exponent with its sign. Zero
has no sign.
-/

namespace WikiTidy.Numeral

open WikiTidy.Text

/-! ## Reading -/

/-- The value of a digit in bases up to 16. -/
def digitValue (c : Char) : Nat :=
  if isDigit c then c.toNat - '0'.toNat
  else if 'a' ≤ c && c ≤ 'f' then c.toNat - 'a'.toNat + 10
  else if 'A' ≤ c && c ≤ 'F' then c.toNat - 'A'.toNat + 10
  else 16

/-- The value of a run of digits. -/
def digitsValue (base : Nat) (digits : Text) : Nat :=
  digits.foldl (fun n c => base * n + digitValue c) 0

/-- A whole number in a base that its first two characters name. -/
def withBase? (s : Text) : Option Nat :=
  let based := fun (base : Nat) (digits : Text) =>
    if digits.isEmpty || !digits.all (fun c => digitValue c < base) then none
    else some (digitsValue base digits)
  match s with
  | '0' :: c :: digits =>
    if c = 'x' ∨ c = 'X' then based 16 digits
    else if c = 'o' ∨ c = 'O' then based 8 digits
    else if c = 'b' ∨ c = 'B' then based 2 digits
    else none
  | _ => none

/-- A decimal number without a sign: its digits as a whole number, and the power of ten to multiply
it by. -/
def decimal? (s : Text) : Option (Nat × Int) := do
  let whole := s.takeWhile isDigit
  let s := s.dropWhile isDigit
  let (places, s) := match s with
    | '.' :: s => (s.takeWhile isDigit, s.dropWhile isDigit)
    | s => ([], s)
  guard (!(whole ++ places).isEmpty)
  let value := digitsValue 10 (whole ++ places)
  match s with
  | [] => return (value, -(places.length : Int))
  | c :: s =>
    guard (c = 'e' ∨ c = 'E')
    let (negative, digits) := match s with
      | '-' :: s => (true, s)
      | '+' :: s => (false, s)
      | s => (false, s)
    guard (!digits.isEmpty && digits.all isDigit)
    let e : Int := digitsValue 10 digits
    return (value, (if negative then -e else e) - places.length)

/-- The number nearest to `value · 10^e`. What is beyond all numbers, or below half the least one,
is told by its number of digits. -/
def ofDecimal? (value : Nat) (e : Int) : Option Binary :=
  let size : Int := (Nat.toDigits 10 value).length + e
  if value = 0 ∨ size < -330 then some ⟨0, -1074⟩
  else if 320 < size then none
  else
    let (num, den) := scale 10 value 1 e
    Binary.nearest? num den

/-- The number that a text stands for, with its sign. -/
def read? (s : Text) : Option (Bool × Binary) :=
  match trim s with
  | [] => some (false, ⟨0, -1074⟩)
  | '-' :: s => do
    let (value, e) ← decimal? s
    let b ← ofDecimal? value e
    return (true, b)
  | '+' :: s => do
    let (value, e) ← decimal? s
    let b ← ofDecimal? value e
    return (false, b)
  | s =>
    match withBase? s with
    | some n => (Binary.nearest? n 1).map fun b => (false, b)
    | none => do
      let (value, e) ← decimal? s
      let b ← ofDecimal? value e
      return (false, b)

/-! ## Writing -/

/-- A whole number with its sign. -/
def signed (e : Int) : Text :=
  (if e < 0 then '-' else '+') :: Nat.toDigits 10 e.natAbs

/-- Digits without the zeros at their end. -/
def dropZeros (digits : Text) : Text := (digits.reverse.dropWhile (· == '0')).reverse

/-- The number `0.d₁d₂… · 10^top` in its canonical form. -/
def layout (digits : Text) (top : Int) : Text :=
  let count : Int := digits.length
  if 0 < top ∧ top ≤ 21 then
    if count ≤ top then digits ++ List.replicate (top - count).toNat '0'
    else digits.take top.toNat ++ '.' :: digits.drop top.toNat
  else if -6 < top ∧ top ≤ 0 then
    '0' :: '.' :: List.replicate top.natAbs '0' ++ digits
  else match digits with
    | [] => []
    | [d] => d :: 'e' :: signed (top - 1)
    | d :: ds => d :: '.' :: ds ++ 'e' :: signed (top - 1)

/-- A number without its sign in its canonical form. -/
def render (b : Binary) : Text :=
  if b.significand = 0 then ['0']
  else
    let (digits, top) := b.shortest
    layout (dropZeros digits) top

/-- The canonical form of the number that a text stands for. -/
def canonical? (s : Text) : Option Text := do
  let (negative, b) ← read? s
  return if negative ∧ b.significand ≠ 0 then '-' :: render b else render b

end WikiTidy.Numeral
