import WikiTidy.Text.Basic

/-!
# UTF-8

`encode` writes a text as bytes; `decode` reads any bytes as a text. Where bytes are no UTF-8, each
longest run that could still have become a character, or else a single byte, is read as one
replacement character.
-/

namespace WikiTidy.Utf8

/-- The content of a file. -/
abbrev Bytes := List UInt8

/-- The bytes of a text. -/
def encode (s : Text) : Bytes := s.flatMap String.utf8EncodeChar

/-- Stands for bytes that are no character. -/
def replacement : Char := '\ufffd'

/-- A character of which some bytes are still owed: how many, the range of the next one, and the
value of those that were read. -/
structure Pending where
  owed : Nat
  low : Nat
  high : Nat
  value : Nat
deriving DecidableEq, Repr

/-- The first byte of a character: what is read at once, and what is owed. -/
def lead (b : Nat) : Text × Option Pending :=
  if b ≤ 0x7F then ([Char.ofNat b], none)
  else if b < 0xC2 then ([replacement], none)
  else if b ≤ 0xDF then ([], some ⟨1, 0x80, 0xBF, b - 0xC0⟩)
  else if b = 0xE0 then ([], some ⟨2, 0xA0, 0xBF, 0⟩)
  else if b = 0xED then ([], some ⟨2, 0x80, 0x9F, 0xD⟩)
  else if b ≤ 0xEF then ([], some ⟨2, 0x80, 0xBF, b - 0xE0⟩)
  else if b = 0xF0 then ([], some ⟨3, 0x90, 0xBF, 0⟩)
  else if b ≤ 0xF3 then ([], some ⟨3, 0x80, 0xBF, b - 0xF0⟩)
  else if b = 0xF4 then ([], some ⟨3, 0x80, 0x8F, 4⟩)
  else ([replacement], none)

/-- One byte: what is read, and what is owed after it. -/
def step : Option Pending → Nat → Text × Option Pending
  | none, b => lead b
  | some p, b =>
    if p.low ≤ b ∧ b ≤ p.high then
      let value := p.value * 0x40 + (b - 0x80)
      if p.owed ≤ 1 then ([Char.ofNat value], none)
      else ([], some ⟨p.owed - 1, 0x80, 0xBF, value⟩)
    else
      let (s, next) := lead b
      (replacement :: s, next)

/-- Reads bytes when some may be owed. -/
def decodeFrom : Option Pending → Bytes → Text
  | none, [] => []
  | some _, [] => [replacement]
  | state, b :: bs =>
    let (s, next) := step state b.toNat
    s ++ decodeFrom next bs

/-- The text of bytes. -/
def decode (bytes : Bytes) : Text := decodeFrom none bytes

end WikiTidy.Utf8
