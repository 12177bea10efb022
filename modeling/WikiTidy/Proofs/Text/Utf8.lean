import WikiTidy.Text.Utf8

/-!
# Reading UTF-8 back

**Theorem (`decode_encode`).** A text that is written as bytes is read back as it was. So a reader
tells apart what a writer tells apart, and writing what was read gives the bytes back exactly if they
are UTF-8 (`encode_decode_eq_iff`): an ill-formed run is read as a replacement character, which is
written as three bytes of its own.

The reader goes through the bytes of one character with the part of its number that it has read
(`decodeFrom_next`, `decodeFrom_last`). The first byte tells how many are owed and keeps the next one
out of the ranges of numbers that have a shorter form, that are no characters, or that are too large
(`lead_three`, `lead_four`).
-/

namespace WikiTidy.Utf8

/-- The bytes are the UTF-8 of a text. -/
def IsUtf8 (bytes : Bytes) : Prop := ∃ s, encode s = bytes

variable {k m n low high value : Nat} {bytes : Bytes}

/-! ## The first byte -/

theorem lead_one (h : n < 0x80) : lead n = ([Char.ofNat n], none) := by
  rw [lead, if_pos (by omega)]

theorem lead_two (hlow : 2 ≤ n) (hhigh : n < 32) :
    lead (n + 192) = ([], some ⟨1, 0x80, 0xBF, n⟩) := by
  rw [lead, if_neg (by omega), if_neg (by omega), if_pos (by omega), Nat.add_sub_cancel]

/-- Of three bytes the first one lets the second one through unless the number is below `0x800` or
stands for half of a pair. -/
theorem lead_three (hn : n < 16) (hm : m < 64) (hlong : n = 0 → 32 ≤ m) (hpair : n = 13 → m < 32) :
    ∃ low high, lead (n + 224) = ([], some ⟨2, low, high, n⟩) ∧ low ≤ m + 128 ∧ m + 128 ≤ high := by
  by_cases hzero : n = 0
  · subst hzero
    have := hlong rfl
    exact ⟨0xA0, 0xBF, rfl, by omega, by omega⟩
  · by_cases hthirteen : n = 13
    · subst hthirteen
      have := hpair rfl
      exact ⟨0x80, 0x9F, rfl, by omega, by omega⟩
    · refine ⟨0x80, 0xBF, ?_, by omega, by omega⟩
      rw [lead, if_neg (by omega), if_neg (by omega), if_neg (by omega), if_neg (by omega),
        if_neg (by omega), if_pos (by omega), Nat.add_sub_cancel]

/-- Of four bytes the first one lets the second one through unless the number is below `0x10000` or
above `0x10FFFF`. -/
theorem lead_four (hn : n < 5) (hm : m < 64) (hlong : n = 0 → 16 ≤ m) (hlarge : n = 4 → m < 16) :
    ∃ low high, lead (n + 240) = ([], some ⟨3, low, high, n⟩) ∧ low ≤ m + 128 ∧ m + 128 ≤ high := by
  by_cases hzero : n = 0
  · subst hzero
    have := hlong rfl
    exact ⟨0x90, 0xBF, rfl, by omega, by omega⟩
  · by_cases hfour : n = 4
    · subst hfour
      have := hlarge rfl
      exact ⟨0x80, 0x8F, rfl, by omega, by omega⟩
    · refine ⟨0x80, 0xBF, ?_, by omega, by omega⟩
      rw [lead, if_neg (by omega), if_neg (by omega), if_neg (by omega), if_neg (by omega),
        if_neg (by omega), if_neg (by omega), if_neg (by omega), if_pos (by omega),
        Nat.add_sub_cancel]

/-! ## Byte by byte -/

theorem decodeFrom_cons (state : Option Pending) (b : UInt8) (bytes : Bytes) :
    decodeFrom state (b :: bytes) =
      (step state b.toNat).1 ++ decodeFrom (step state b.toNat).2 bytes := by
  cases state <;> rfl

theorem decodeFrom_lead {b : UInt8} {s : Text} {next : Option Pending} (hn : n < 256)
    (hb : b = UInt8.ofNat n) (h : lead n = (s, next)) :
    decodeFrom none (b :: bytes) = s ++ decodeFrom next bytes := by
  have hstep : step none b.toNat = (s, next) := by
    rw [hb, UInt8.toNat_ofNat', Nat.mod_eq_of_lt hn]
    exact h
  rw [decodeFrom_cons, hstep]

theorem step_owed (hm : m < 64) (hlow : low ≤ m + 128) (hhigh : m + 128 ≤ high) :
    step (some ⟨k + 1, low, high, value⟩) (UInt8.ofNat (m + 128)).toNat =
      if k = 0 then ([Char.ofNat (value * 64 + m)], none)
      else ([], some ⟨k, 0x80, 0xBF, value * 64 + m⟩) := by
  rw [UInt8.toNat_ofNat', Nat.mod_eq_of_lt (by omega)]
  simp only [step, if_pos (And.intro hlow hhigh), Nat.add_sub_cancel]
  by_cases hk : k = 0
  · rw [if_pos hk, if_pos (by omega)]
  · rw [if_neg hk, if_neg (by omega)]

theorem decodeFrom_next (hm : m < 64) (hlow : low ≤ m + 128) (hhigh : m + 128 ≤ high) :
    decodeFrom (some ⟨k + 2, low, high, value⟩) (UInt8.ofNat (m + 128) :: bytes) =
      decodeFrom (some ⟨k + 1, 0x80, 0xBF, value * 64 + m⟩) bytes := by
  rw [decodeFrom_cons, step_owed hm hlow hhigh, if_neg (by omega)]
  rfl

theorem decodeFrom_last (hm : m < 64) (hlow : low ≤ m + 128) (hhigh : m + 128 ≤ high) :
    decodeFrom (some ⟨1, low, high, value⟩) (UInt8.ofNat (m + 128) :: bytes) =
      Char.ofNat (value * 64 + m) :: decodeFrom none bytes := by
  rw [decodeFrom_cons, step_owed hm hlow hhigh, if_pos rfl]
  rfl

/-! ## Character by character -/

theorem toNat_cases (c : Char) : c.toNat < 0xD800 ∨ (0xDFFF < c.toNat ∧ c.toNat < 0x110000) :=
  c.valid

/-- **The bytes of a character are read as that character.** -/
theorem decodeFrom_encodeChar (c : Char) (bytes : Bytes) :
    decodeFrom none (String.utf8EncodeChar c ++ bytes) = c :: decodeFrom none bytes := by
  have hc := toNat_cases c
  have hread : ∀ n, n = c.toNat → Char.ofNat n = c := by
    rintro n rfl
    exact Char.ofNat_toNat c
  simp only [String.utf8EncodeChar, show c.val.toNat = c.toNat from rfl]
  revert hc hread
  generalize c.toNat = n
  intro hc hread
  split
  · next hone =>
    rw [List.singleton_append, decodeFrom_lead (by omega) rfl (lead_one (by omega)), hread n rfl]
    rfl
  · split
    · next hone htwo =>
      rw [List.cons_append, Nat.mod_eq_of_lt (show n / 64 < 32 by omega),
        decodeFrom_lead (by omega) rfl (lead_two (by omega) (by omega)), List.nil_append,
        List.cons_append, decodeFrom_last (by omega) (by omega) (by omega), hread _ (by omega)]
      rfl
    · split
      · next hone htwo hthree =>
        obtain ⟨low, high, hlead, hlow, hhigh⟩ := lead_three (n := n / 4096) (m := n / 64 % 64)
          (by omega) (by omega) (by omega) (by omega)
        rw [List.cons_append, Nat.mod_eq_of_lt (show n / 4096 < 16 by omega),
          decodeFrom_lead (by omega) rfl hlead, List.nil_append, List.cons_append,
          decodeFrom_next (by omega) hlow hhigh, List.cons_append,
          decodeFrom_last (by omega) (by omega) (by omega), hread _ (by omega)]
        rfl
      · next hone htwo hthree =>
        obtain ⟨low, high, hlead, hlow, hhigh⟩ := lead_four (n := n / 262144) (m := n / 4096 % 64)
          (by omega) (by omega) (by omega) (by omega)
        rw [List.cons_append, Nat.mod_eq_of_lt (show n / 262144 < 8 by omega),
          decodeFrom_lead (by omega) rfl hlead, List.nil_append, List.cons_append,
          decodeFrom_next (by omega) hlow hhigh, List.cons_append,
          decodeFrom_next (by omega) (by omega) (by omega), List.cons_append,
          decodeFrom_last (by omega) (by omega) (by omega), hread _ (by omega)]
        rfl

/-- **A text is read back from its bytes.** -/
theorem decode_encode (s : Text) : decode (encode s) = s := by
  induction s with
  | nil => rfl
  | cons c s ih =>
    rw [encode, List.flatMap_cons, decode, decodeFrom_encodeChar]
    exact congrArg (c :: ·) ih

/-- Writing what was read gives the bytes back exactly if they are UTF-8. -/
theorem encode_decode_eq_iff : encode (decode bytes) = bytes ↔ IsUtf8 bytes := by
  constructor
  · intro h
    exact ⟨decode bytes, h⟩
  · rintro ⟨s, rfl⟩
    rw [decode_encode]

end WikiTidy.Utf8
