/-!
# Text

A text is a list of characters. This module holds the character classes that every reader of a
page uses, trimming, lower-casing, and the search for a word.

**Blanks** (`isBlank`). The characters that separate words: the ASCII controls from tab to
carriage return, the space, the no-break spaces, the Unicode spaces, the two Unicode line
separators and the byte order mark.

**Line ends** (`isLineEnd`). The four characters that end a line of a label: a label is never
longer than a line.

**Words.** `after? w s` takes the word `w` off the head of `s`; `contains w s` finds it anywhere.
Main facts: `after?_eq_some_iff` and `contains_iff`.
-/

namespace WikiTidy

/-- A text, character by character. -/
abbrev Text := List Char

namespace Text

/-! ## Classes of characters -/

/-- The characters that count as white space. -/
def isBlank (c : Char) : Bool :=
  let n := c.toNat
  (0x09 ≤ n && n ≤ 0x0D) || n == 0x20 || n == 0xA0 || n == 0x1680
    || (0x2000 ≤ n && n ≤ 0x200A) || n == 0x2028 || n == 0x2029 || n == 0x202F
    || n == 0x205F || n == 0x3000 || n == 0xFEFF

/-- The characters that end a line. -/
def isLineEnd (c : Char) : Bool :=
  c == '\n' || c == '\r' || c == '\u2028' || c == '\u2029'

/-- A decimal digit. -/
def isDigit (c : Char) : Bool := '0' ≤ c && c ≤ '9'

/-- A letter of the basic alphabet, a decimal digit or an underscore. -/
def isWordChar (c : Char) : Bool :=
  ('A' ≤ c && c ≤ 'Z') || ('a' ≤ c && c ≤ 'z') || isDigit c || c == '_'

/-- Every line end is a blank. -/
theorem isBlank_of_isLineEnd {c : Char} (h : isLineEnd c = true) : isBlank c = true := by
  simp only [isLineEnd, Bool.or_eq_true, beq_iff_eq] at h
  rcases h with ((rfl | rfl) | rfl) | rfl <;> decide

/-! ## Trimming -/

/-- Drops the blanks at the start. -/
def trimStart (s : Text) : Text := s.dropWhile isBlank

/-- Drops the blanks at the end. -/
def trimEnd (s : Text) : Text := (s.reverse.dropWhile isBlank).reverse

/-- Drops the blanks at both ends. -/
def trim (s : Text) : Text := trimEnd (trimStart s)

/-! ## Words -/

/-- The text that follows the word `w`, if the text starts with it. -/
def after? : Text → Text → Option Text
  | [], s => some s
  | _ :: _, [] => none
  | a :: w, c :: s => if a = c then after? w s else none

/-- Taking a word off the head leaves the rest, and nothing else does. -/
theorem after?_eq_some_iff {w s r : Text} : after? w s = some r ↔ s = w ++ r := by
  induction w generalizing s with
  | nil => simp [after?]
  | cons a w ih =>
    cases s with
    | nil => simp [after?]
    | cons c s => by_cases h : a = c <;> simp [after?, h, ih, eq_comm]

theorem after?_append (w s : Text) : after? w (w ++ s) = some s :=
  after?_eq_some_iff.2 rfl

/-- The text starts with the word. -/
def startsWith (w s : Text) : Bool := (after? w s).isSome

/-- The text ends with the word. -/
def endsWith (w s : Text) : Bool := (after? w.reverse s.reverse).isSome

theorem startsWith_iff {w s : Text} : startsWith w s = true ↔ w <+: s := by
  simp only [startsWith, Option.isSome_iff_exists, after?_eq_some_iff]
  exact ⟨fun ⟨r, h⟩ => ⟨r, h.symm⟩, fun ⟨r, h⟩ => ⟨r, h.symm⟩⟩

theorem endsWith_iff {w s : Text} : endsWith w s = true ↔ w <:+ s := by
  rw [← List.reverse_prefix, ← startsWith_iff, startsWith, endsWith]

/-- The word stands somewhere in the text. -/
def contains (w : Text) : Text → Bool
  | [] => w.isEmpty
  | c :: s => startsWith w (c :: s) || contains w s

theorem contains_iff {w s : Text} : contains w s = true ↔ w <:+: s := by
  induction s with
  | nil => cases w <;> simp [contains]
  | cons c s ih => simp [contains, startsWith_iff, ih, List.infix_cons_iff]

/-! ## Runs -/

/-- A run of at least one character of a class, and the text after it. -/
def run? (p : Char → Bool) (s : Text) : Option (Text × Text) :=
  match s.takeWhile p with
  | [] => none
  | c :: cs => some (c :: cs, s.dropWhile p)

/-- A run and what follows it make up the text; the run is as long as it can be. -/
theorem run?_eq_some {p : Char → Bool} {s a r : Text} (h : run? p s = some (a, r)) :
    s = a ++ r ∧ a ≠ [] ∧ (∀ c ∈ a, p c = true) ∧ ∀ c ∈ r.head?, p c = false := by
  unfold run? at h
  split at h
  · cases h
  · next c cs hs =>
    simp only [Option.some.injEq, Prod.mk.injEq] at h
    obtain ⟨rfl, rfl⟩ := h
    refine ⟨by rw [← hs, List.takeWhile_append_dropWhile], by simp, ?_, ?_⟩
    · rw [← hs]
      exact fun c hc => List.all_eq_true.1 List.all_takeWhile c hc
    · intro c hc
      have hd := List.head?_dropWhile_not p s
      rw [hc] at hd
      simpa using hd

/-! ## Pieces between separators -/

/-- The pieces between the occurrences of a character, one more than there are occurrences. -/
def split (sep : Char) : Text → List Text
  | [] => [[]]
  | c :: s =>
    if c = sep then [] :: split sep s
    else match split sep s with
      | [] => [[c]]
      | piece :: pieces => (c :: piece) :: pieces

theorem split_ne_nil (sep : Char) (s : Text) : split sep s ≠ [] := by
  cases s with
  | nil => simp [split]
  | cons c s =>
    simp only [split]
    split
    · simp
    · split <;> simp

/-- The pieces with a separator between them. -/
def join (sep : Text) (pieces : List Text) : Text := sep.intercalate pieces

/-- What stands up to and including the last occurrence of a character, and what follows it. -/
def splitLast (sep : Char) (s : Text) : Text × Text :=
  let tail := (s.reverse.takeWhile (· != sep)).reverse
  (s.take (s.length - tail.length), tail)

/-! ## Letter case -/

/-- One character in lower case, as far as a word of basic letters can tell: the basic capitals,
the Kelvin sign, which lowers to a basic letter, and the dotted capital I, which lowers to a basic
letter and a combining dot. -/
def lowerChar (c : Char) : Text :=
  if 'A' ≤ c && c ≤ 'Z' then [Char.ofNat (c.toNat + 32)]
  else if c = '\u212a' then ['k']
  else if c = '\u0130' then ['i', '\u0307']
  else [c]

/-- The text in lower case. -/
def lower (s : Text) : Text := s.flatMap lowerChar

end Text

end WikiTidy
