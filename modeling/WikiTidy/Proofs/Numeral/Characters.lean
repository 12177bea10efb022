import Mathlib.Data.Option.Basic
import WikiTidy.Numeral.Text

/-!
# The characters of numbers

A number is written with digits up to base 16, a point, the letters that name a base or an exponent,
and signs, and with blanks around it. A text with any other character is no number
(`canonical?_eq_none`).
-/

namespace WikiTidy.Numeral

open WikiTidy.Text

variable {s : Text} {c : Char}

/-- A character that a number may be written with. -/
def isNumberChar (c : Char) : Bool :=
  decide (digitValue c < 16) || ['.', '+', '-', 'x', 'X', 'o', 'O', 'b', 'B', 'e', 'E'].contains c

theorem mem_dropWhile {p : Char → Bool} (h : c ∈ s) (hc : p c = false) : c ∈ s.dropWhile p := by
  rw [← List.takeWhile_append_dropWhile (p := p) (l := s), List.mem_append] at h
  refine h.resolve_left fun htake => ?_
  rw [List.all_eq_true.1 List.all_takeWhile c htake] at hc
  cases hc

theorem mem_trim (h : c ∈ s) (hc : isBlank c = false) : c ∈ trim s := by
  have hstart : c ∈ trimStart s := mem_dropWhile h hc
  have hend := mem_dropWhile (List.mem_reverse.2 hstart) hc
  exact List.mem_reverse.2 hend

theorem isDigit_of_isNumberChar (hc : isNumberChar c = false) : isDigit c = false := by
  cases hdigit : isDigit c with
  | false => rfl
  | true =>
    have hvalue : digitValue c < 16 := by
      rw [digitValue, if_pos hdigit]
      simp only [isDigit, Bool.and_eq_true, decide_eq_true_eq, Char.le_def,
        UInt32.le_iff_toNat_le] at hdigit
      show c.toNat - 48 < 16
      have : c.toNat ≤ 57 := hdigit.2
      omega
    simp [isNumberChar, hvalue] at hc

/-- The character is one that numbers are written with, and this one is not. -/
theorem ne_of_isNumberChar {d : Char} (hc : isNumberChar c = false) (hd : isNumberChar d = true) :
    c ≠ d := by
  rintro rfl
  rw [hc] at hd
  cases hd

theorem decimal?_eq_none (h : c ∈ s) (hc : isNumberChar c = false) : decimal? s = none := by
  have hdigit := isDigit_of_isNumberChar hc
  have hrest := mem_dropWhile h hdigit
  rw [Option.eq_none_iff_forall_ne_some]
  intro x hx
  simp only [decimal?, Option.bind_eq_bind, Option.bind_eq_some_iff] at hx
  obtain ⟨-, -, hx⟩ := hx
  generalize hcut : Prod.snd _ = rest at hx
  have hplaces : c ∈ rest := by
    rw [← hcut]
    split
    · next t hpoint =>
      rw [hpoint] at hrest
      exact mem_dropWhile (List.mem_of_ne_of_mem (ne_of_isNumberChar hc (by decide)) hrest) hdigit
    · exact hrest
  cases rest with
  | nil => cases hplaces
  | cons e t =>
    -- The character stands behind the letter of the exponent, among its digits.
    simp only [Option.bind_eq_some_iff, Option.guard_eq_some'] at hx
    obtain ⟨-, hletter, -, hdigits, -⟩ := hx
    have he : isNumberChar e = true := by rcases hletter with rfl | rfl <;> decide
    have ht : c ∈ t := List.mem_of_ne_of_mem (ne_of_isNumberChar hc he) hplaces
    generalize hcut : Prod.snd _ = digits at hdigits
    have hexponent : c ∈ digits := by
      rw [← hcut]
      split
      · exact List.mem_of_ne_of_mem (ne_of_isNumberChar hc (by decide)) ht
      · exact List.mem_of_ne_of_mem (ne_of_isNumberChar hc (by decide)) ht
      · exact ht
    rw [Bool.and_eq_true] at hdigits
    rw [List.all_eq_true.1 hdigits.2 c hexponent] at hdigit
    cases hdigit

theorem withBase?_eq_none (h : c ∈ s) (hc : isNumberChar c = false) : withBase? s = none := by
  have hbased {base : Nat} {digits : Text} (hbase : base ≤ 16) (hmem : c ∈ digits) :
      (if digits.isEmpty || !digits.all (fun c => digitValue c < base) then none
        else some (digitsValue base digits)) = none := by
    have hvalue : ¬digitValue c < base := by
      intro hlt
      have : digitValue c < 16 := by omega
      simp [isNumberChar, this] at hc
    have hall : digits.all (fun c => digitValue c < base) = false :=
      List.all_eq_false.2 ⟨c, hmem, by simpa using hvalue⟩
    simp [hall]
  unfold withBase?
  dsimp only
  split
  · next letter digits =>
    have hrest := List.mem_of_ne_of_mem (ne_of_isNumberChar hc (by decide)) h
    have hdigits (hletter : isNumberChar letter = true) : c ∈ digits :=
      List.mem_of_ne_of_mem (ne_of_isNumberChar hc hletter) hrest
    split
    · next hx => exact hbased (by decide) (hdigits (by rcases hx with rfl | rfl <;> decide))
    · split
      · next ho => exact hbased (by decide) (hdigits (by rcases ho with rfl | rfl <;> decide))
      · split
        · next hb => exact hbased (by decide) (hdigits (by rcases hb with rfl | rfl <;> decide))
        · rfl
  · rfl

/-- **A text with another character is no number.** -/
theorem canonical?_eq_none (h : c ∈ s) (hblank : isBlank c = false) (hc : isNumberChar c = false) :
    canonical? s = none := by
  have hmem := mem_trim h hblank
  have hread : read? s = none := by
    unfold read?
    split
    · next hnil =>
      rw [hnil] at hmem
      cases hmem
    · next t hminus =>
      rw [hminus] at hmem
      simp [decimal?_eq_none (List.mem_of_ne_of_mem (ne_of_isNumberChar hc (by decide)) hmem) hc]
    · next t hplus =>
      rw [hplus] at hmem
      simp [decimal?_eq_none (List.mem_of_ne_of_mem (ne_of_isNumberChar hc (by decide)) hmem) hc]
    · simp [withBase?_eq_none hmem hc, decimal?_eq_none hmem hc]
  rw [canonical?, hread]
  rfl

end WikiTidy.Numeral
