/-!
# Binary floating-point numbers

A positive number of double precision is `m · 2^q` with a significand `m` below 2⁵³ and an exponent
`q` from -1074 to 971; unless `q` is the least exponent, `m` is at least 2⁵². `nearest?` rounds a
quotient to such a number, a tie to the even significand. `shortest` is the least number of digits
that tells it from its neighbours, and of those digits the nearest to it.
-/

namespace WikiTidy.Numeral

/-- A positive number of double precision, or zero. -/
structure Binary where
  significand : Nat
  exponent : Int
deriving DecidableEq, Repr

/-- A quotient rounded to a whole number, a tie to the even one. -/
def roundDiv (num den : Nat) : Nat :=
  let q := num / den
  let r := 2 * (num % den)
  if r < den then q else if den < r then q + 1 else q + q % 2

/-- A quotient times a power of a base, as a quotient. -/
def scale (base : Nat) (num den : Nat) (e : Int) : Nat × Nat :=
  if e < 0 then (num, den * base.pow e.natAbs) else (num * base.pow e.natAbs, den)

namespace Binary

/-- The least significand of a number whose exponent is not the least one. -/
def leastSignificand : Nat := 0x10000000000000

/-- The exponent of the greatest power of two that is not above a quotient. -/
def log2 (num den : Nat) : Int :=
  let e : Int := (num.log2 : Int) - (den.log2 : Int)
  let (n, d) := scale 2 num den (-e)
  if d ≤ n then e else e - 1

/-- The number nearest to a quotient, if it is not too large. -/
def nearest? (num den : Nat) : Option Binary :=
  if num = 0 then some ⟨0, -1074⟩
  else
    let q := max (log2 num den - 52) (-1074)
    let (n, d) := scale 2 num den (-q)
    let m := roundDiv n d
    let rounded : Binary := if m = 2 * leastSignificand then ⟨leastSignificand, q + 1⟩ else ⟨m, q⟩
    if rounded.exponent ≤ 971 then some rounded else none

/-- The value of a number as a quotient. -/
def quotient (b : Binary) : Nat × Nat := scale 2 b.significand 1 b.exponent

/-- The ends of the interval of numbers that round to `b`, as numerators over one denominator. -/
def interval (b : Binary) : Nat × Nat × Nat :=
  let below := if b.significand = leastSignificand ∧ -1074 < b.exponent then 1 else 2
  let (n, d) := scale 2 1 4 b.exponent
  ((4 * b.significand - below) * n, (4 * b.significand + 2) * n, d)

/-- The quotient `num / den` rounds to `b`. -/
def accepts (b : Binary) (num den : Nat) : Bool :=
  let (low, high, d) := b.interval
  if b.significand % 2 = 0 then low * den ≤ num * d && num * d ≤ high * den
  else low * den < num * d && num * d < high * den

/-- The exponent of the least power of ten above a number that is not zero, searched for downwards
from a power that is above all numbers. -/
def log10From (num den : Nat) : Nat → Int → Int
  | 0, e => e
  | tries + 1, e =>
    let (n, d) := scale 10 num den (-(e - 1))
    if d ≤ n then e else log10From num den tries (e - 1)

/-- The exponent of the least power of ten above a number. -/
def log10 (b : Binary) : Int :=
  let (num, den) := b.quotient
  log10From num den 640 310

/-- The digits of `count` places that round to `b`, if there are any: of the two neighbours of `b`
on the grid the nearer one that rounds to `b`, and of two equally near ones the even one. -/
def onGrid? (b : Binary) (top : Int) (count : Nat) : Option Nat :=
  let place := top - count
  let (num, den) := b.quotient
  let (n, d) := scale 10 num den (-place)
  let low := n / d
  let fits := fun s => let (sn, sd) := scale 10 s 1 place; b.accepts sn sd
  let nearer := roundDiv n d
  let other := if nearer = low then low + 1 else low
  if fits nearer then some nearer else if fits other then some other else none

/-- The fewest digits that tell a number from its neighbours, counted up from `count`. -/
def shortestFrom (b : Binary) (top : Int) : Nat → Nat → Nat × Nat
  | 0, count => (0, count)
  | tries + 1, count =>
    match b.onGrid? top count with
    | some s => (s, count)
    | none => shortestFrom b top tries (count + 1)

/-- The digits of a number that is not zero, and the exponent of ten that puts the point before the
first of them. -/
def shortest (b : Binary) : List Char × Int :=
  let top := b.log10
  let (s, count) := b.shortestFrom top 17 1
  let digits := Nat.toDigits 10 s
  (digits, top + digits.length - count)

end Binary

end WikiTidy.Numeral
