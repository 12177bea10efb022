import Mathlib.Algebra.GroupWithZero.Nat
import Mathlib.Algebra.Order.BigOperators.Group.List
import Mathlib.Algebra.Order.Group.Nat
import WikiTidy.Proofs.Text.Marks
import WikiTidy.Proofs.Text.Split
import WikiTidy.Text.Lines

/-!
# The lines of a page and what they count

A page is its pieces between line feeds, and `join_pieces` puts it together again; its lines are
these pieces without a carriage return at the end. So a count over a page is a count over its pieces
and its line feeds (`count_join`), and passes that work line by line can be followed line by line.
-/

namespace WikiTidy.Lines

open Text

variable {m : Mark} {lines : List Text} {page line : Text}

/-- The pieces of a page between its line feeds, without an empty one at the end. -/
def pieces (page : Text) : List Text := dropEmptyLast (split '\n' page)

theorem ofText_eq (page : Text) : ofText page = (pieces page).map chomp := rfl

theorem dropEmptyLast_concat (front : List Text) : dropEmptyLast (front ++ [[]]) = front := by
  rw [dropEmptyLast, if_pos List.getLast?_concat, List.dropLast_concat]

theorem dropEmptyLast_eq_self (h : lines.getLast? ≠ some []) : dropEmptyLast lines = lines :=
  if_neg h

theorem mem_split_of_mem_pieces {piece : Text} (h : piece ∈ pieces page) :
    piece ∈ split '\n' page := by
  rw [pieces, dropEmptyLast] at h
  split at h
  · exact List.dropLast_subset _ h
  · exact h

theorem notMem_of_mem_pieces {piece : Text} (h : piece ∈ pieces page) : '\n' ∉ piece :=
  notMem_of_mem_split (mem_split_of_mem_pieces h)

/-- **The pieces make up the page.** -/
theorem join_pieces (page : Text) : join (pieces page) page = page := by
  obtain ⟨stem, last, hstem, hlast, rfl⟩ := exists_eq_stem_append '\n' page
  obtain ⟨front, hsplit⟩ : ∃ front, split '\n' (stem ++ last) = front ++ [last] := by
    rcases hstem with rfl | ⟨t, rfl⟩
    · exact ⟨[], split_of_notMem hlast⟩
    · refine ⟨split '\n' t, ?_⟩
      rw [List.append_assoc, List.singleton_append, split_append_sep, split_of_notMem hlast]
  by_cases hnil : last = []
  · subst hnil
    rcases hstem with rfl | ⟨t, rfl⟩
    · rfl
    · have hpieces : pieces (t ++ ['\n'] ++ []) = split '\n' t := by
        rw [List.append_nil, pieces, split_append_sep]
        exact dropEmptyLast_concat _
      rw [join, hpieces, join_split]
      simp [endsWithNewline]
  · have hpieces : pieces (stem ++ last) = split '\n' (stem ++ last) :=
      dropEmptyLast_eq_self (by simpa [hsplit] using hnil)
    have hend : endsWithNewline (stem ++ last) = false := by
      rw [endsWithNewline, List.getLast?_append, List.getLast?_eq_some_getLast hnil]
      simpa using fun h : last.getLast hnil = '\n' => hlast (h ▸ List.getLast_mem hnil)
    rw [join, hpieces, join_split, hend]
    exact List.append_nil _

/-- Lines that make up the same page are the same, if they are as many. -/
theorem join_left_inj {others : List Text} (hlength : lines.length = others.length)
    (hlines : ∀ line ∈ lines, '\n' ∉ line) (hothers : ∀ line ∈ others, '\n' ∉ line)
    (page : Text) : join lines page = join others page ↔ lines = others := by
  constructor
  · intro h
    have hjoin : Text.join ['\n'] lines = Text.join ['\n'] others := List.append_cancel_right h
    by_cases hnil : lines = []
    · rw [hnil, List.length_nil, eq_comm, List.length_eq_zero_iff] at hlength
      rw [hnil, hlength]
    · have hnil' : others ≠ [] := by
        rintro rfl
        exact hnil (List.length_eq_zero_iff.1 hlength)
      exact (Text.join_inj hnil hnil' hlines hothers).1 hjoin
  · rintro rfl
    rfl

/-! ## Counting line by line -/

theorem count_textJoin (m : Mark) (lines : List Text) :
    m.count (Text.join ['\n'] lines) =
      (lines.map m.count).sum + (lines.length - 1) * (m.char '\n').toNat := by
  induction lines with
  | nil => simp [Text.join]
  | cons a lines ih =>
    cases lines with
    | nil => simp [Text.join, List.intercalate]
    | cons b lines =>
      have hsplit : m.count (Text.join ['\n'] (a :: b :: lines)) =
          m.count a + ((m.char '\n').toNat + m.count (Text.join ['\n'] (b :: lines))) := by
        rw [join_cons_cons]
        exact m.tally_append_cons '\n' a _ '\n' (by decide)
      rw [hsplit, ih]
      simp only [List.map_cons, List.sum_cons, List.length_cons, Nat.add_sub_cancel, Nat.succ_mul]
      omega

/-- **A page counts what its lines count**, and its line feeds. -/
theorem count_join (m : Mark) (lines : List Text) (page : Text) :
    m.count (join lines page) =
      (lines.map m.count).sum +
        (lines.length - 1 + (endsWithNewline page).toNat) * (m.char '\n').toNat := by
  have hfeed : m.count (Text.join ['\n'] lines ++ ['\n']) =
      m.count (Text.join ['\n'] lines) + (m.char '\n').toNat :=
    m.tally_append_cons '\n' _ [] '\n' (by decide)
  rw [join]
  cases endsWithNewline page with
  | true => rw [if_pos rfl, hfeed, count_textJoin, Bool.toNat_true, Nat.add_mul, Nat.one_mul,
      Nat.add_assoc]
  | false => simp [count_textJoin]

/-- Lines that count less, and are no more, make up a page that counts less. -/
theorem count_join_le {k : Nat} (hlength : lines.length ≤ (pieces page).length)
    (hsum : (lines.map m.count).sum + k ≤ ((pieces page).map m.count).sum) :
    m.count (join lines page) + k ≤ m.count page := by
  have hpage := count_join m (pieces page) page
  rw [join_pieces] at hpage
  rw [hpage, count_join]
  have hfeeds : (lines.length - 1 + (endsWithNewline page).toNat) * (m.char '\n').toNat ≤
      ((pieces page).length - 1 + (endsWithNewline page).toNat) * (m.char '\n').toNat :=
    Nat.mul_le_mul_right _ (by omega)
  omega

/-! ## Carriage returns -/

/-- A carriage return ends the piece. -/
def endsWithReturn (piece : Text) : Bool := piece.getLast? == some '\r'

theorem endsWithReturn_iff : endsWithReturn line = true ↔ ∃ start, line = start ++ ['\r'] := by
  rw [endsWithReturn, beq_iff_eq, List.getLast?_eq_some_iff]

theorem chomp_concat (start : Text) : chomp (start ++ ['\r']) = start := by
  rw [chomp, if_pos List.getLast?_concat, List.dropLast_concat]

theorem chomp_eq_self_iff : chomp line = line ↔ endsWithReturn line = false := by
  cases h : endsWithReturn line with
  | true =>
    obtain ⟨start, rfl⟩ := endsWithReturn_iff.1 h
    simp [chomp_concat]
  | false =>
    have hlast : line.getLast? ≠ some '\r' := by simpa [endsWithReturn] using h
    simp [chomp, hlast]

theorem map_chomp_eq_self_iff :
    lines.map chomp = lines ↔ ∀ line ∈ lines, endsWithReturn line = false := by
  have hid := List.map_inj_left (l := lines) (f := chomp) (g := id)
  simpa only [List.map_id, id, chomp_eq_self_iff] using hid

/-- The pieces are the lines when no carriage return stands at their ends. -/
theorem ofText_eq_pieces_iff :
    ofText page = pieces page ↔ ∀ piece ∈ pieces page, endsWithReturn piece = false :=
  map_chomp_eq_self_iff

theorem count_chomp_le (hreturn : ∀ x, m.slash x '\n' = true → m.slash x '\r' = true)
    (line : Text) :
    m.count (chomp line) + (endsWithReturn line && m.char '\r').toNat ≤ m.count line := by
  by_cases h : endsWithReturn line = true
  · obtain ⟨start, rfl⟩ := endsWithReturn_iff.1 h
    have hstart : m.tally '\n' start '\n' ≤ m.tally '\n' start '\r' :=
      Mark.tally_mono_right hreturn
    have hline : m.count (start ++ ['\r']) =
        m.tally '\n' start '\r' + ((m.char '\r').toNat + 0) :=
      m.tally_append_cons '\n' start [] '\n' (by decide)
    rw [hline, chomp_concat, h, Bool.true_and]
    exact Nat.add_le_add_right hstart _
  · rw [Bool.not_eq_true] at h
    simp [chomp_eq_self_iff.2 h, h]

theorem length_ofText (page : Text) : (ofText page).length = (pieces page).length := by
  rw [ofText_eq, List.length_map]

theorem sum_ofText_le (hreturn : ∀ x, m.slash x '\n' = true → m.slash x '\r' = true) (page : Text) :
    ((ofText page).map m.count).sum ≤ ((pieces page).map m.count).sum := by
  rw [ofText_eq, List.map_map]
  refine List.sum_le_sum fun piece _ => ?_
  exact Nat.le_of_add_right_le (count_chomp_le hreturn piece)

end WikiTidy.Lines
