import WikiTidy.Proofs.Text.LineEnds

/-!
# Reading lines and joining them

**Theorem (`reading_and_joining_inverse`).** A page without carriage returns is made up by its lines,
and lines that are joined to a page are read from it again, as far as a page can carry them.

*From the page.* Reading takes nothing away but the carriage returns at the ends of the pieces. So a
page is made up by its lines exactly when no carriage return stands before a line feed or at its end
(`join_ofText_eq_self_iff`).

*From the lines.* A line feed within a line cuts it, and a carriage return at its end goes. Other
lines are the pieces of the page that is joined from them (`pieces_join_eq_self`), but for one case:
only a line feed behind it tells an empty last line from none. A page that `Carries` its lines is
free of all this, and only such a page gives them back (`ofText_join_eq_self_iff`).
-/

namespace WikiTidy.Lines

open Text

variable {lines : List Text} {page piece : Text}

/-! ## Pages that are made up by their lines -/

theorem mem_pieces_of_mem_split (h : piece ∈ split '\n' page) (hne : piece ≠ []) :
    piece ∈ pieces page := by
  by_cases hlast : (split '\n' page).getLast? = some []
  · obtain ⟨front, hsplit⟩ := List.getLast?_eq_some_iff.1 hlast
    rw [hsplit] at h
    rw [pieces, hsplit, dropEmptyLast_concat]
    simpa [hne] using h
  · rwa [pieces, dropEmptyLast_eq_self hlast]

theorem exists_endsWithReturn_iff :
    (∃ piece ∈ pieces page, endsWithReturn piece = true) ↔
      ['\r', '\n'] <:+: page ∨ ['\r'] <:+ page := by
  constructor
  · rintro ⟨piece, hpiece, hreturn⟩
    obtain ⟨start, rfl⟩ := endsWithReturn_iff.1 hreturn
    obtain ⟨-, front, back, -, hback, rfl⟩ := mem_split_iff.1 (mem_split_of_mem_pieces hpiece)
    rcases hback with rfl | ⟨t, rfl⟩
    · exact Or.inr ⟨front ++ start, by simp⟩
    · exact Or.inl ⟨front ++ start, t, by simp⟩
  · intro h
    obtain ⟨a, back, hback, rfl⟩ :
        ∃ a back, (back = [] ∨ ∃ t, back = '\n' :: t) ∧ page = a ++ ['\r'] ++ back := by
      rcases h with ⟨a, t, rfl⟩ | ⟨a, rfl⟩
      · exact ⟨a, '\n' :: t, Or.inr ⟨t, rfl⟩, by simp⟩
      · exact ⟨a, [], Or.inl rfl, by simp⟩
    obtain ⟨stem, start, hstem, hstart, rfl⟩ := exists_eq_stem_append '\n' a
    have hfeed : '\n' ∉ start ++ ['\r'] := by simp [hstart]
    have hmem : start ++ ['\r'] ∈ split '\n' (stem ++ start ++ ['\r'] ++ back) :=
      mem_split_iff.2 ⟨hfeed, stem, back, hstem, hback, by simp⟩
    exact ⟨_, mem_pieces_of_mem_split hmem (by simp), endsWithReturn_iff.2 ⟨start, rfl⟩⟩

theorem join_ofText_eq_self_iff :
    join (ofText page) page = page ↔ ¬['\r', '\n'] <:+: page ∧ ¬['\r'] <:+ page := by
  have hlines : ∀ line ∈ ofText page, '\n' ∉ line := fun _ => notMem_of_mem_ofText
  have hpieces : ∀ piece ∈ pieces page, '\n' ∉ piece := fun _ => notMem_of_mem_pieces
  calc join (ofText page) page = page
      ↔ join (ofText page) page = join (pieces page) page := by rw [join_pieces]
    _ ↔ ofText page = pieces page := join_left_inj (length_ofText page) hlines hpieces page
    _ ↔ ¬∃ piece ∈ pieces page, endsWithReturn piece = true := by
        simp only [ofText_eq_pieces_iff, not_exists, not_and, Bool.not_eq_true]
    _ ↔ ¬['\r', '\n'] <:+: page ∧ ¬['\r'] <:+ page := by
        rw [exists_endsWithReturn_iff, not_or]

/-! ## Lines that are read again -/

/-- The pieces of joined lines, if there is a line in front of the last line feed. -/
theorem pieces_join (hlines : ∀ line ∈ lines, '\n' ∉ line)
    (hne : endsWithNewline page = true → lines ≠ []) :
    pieces (join lines page) = if endsWithNewline page then lines else dropEmptyLast lines := by
  cases hend : endsWithNewline page with
  | true =>
    have hjoin : join lines page = Text.join ['\n'] lines ++ '\n' :: [] := by simp [join, hend]
    have hnil : pieces [] = [] := rfl
    rw [hjoin, pieces_append, split_join (hne hend) hlines, hnil, List.append_nil, if_pos rfl]
  | false =>
    have hjoin : join lines page = Text.join ['\n'] lines := by simp [join, hend]
    rw [hjoin, if_neg Bool.false_ne_true]
    by_cases hnil : lines = []
    · rw [hnil]
      rfl
    · rw [pieces, split_join hnil hlines]

theorem pieces_join_eq_self (hlines : ∀ line ∈ lines, '\n' ∉ line)
    (hne : endsWithNewline page = true → lines ≠ [])
    (hlast : endsWithNewline page = false → lines.getLast? ≠ some []) :
    pieces (join lines page) = lines := by
  rw [pieces_join hlines hne]
  cases hend : endsWithNewline page with
  | true => rw [if_pos rfl]
  | false => rw [if_neg Bool.false_ne_true, dropEmptyLast_eq_self (hlast hend)]

/-- A page that ends like `page` can carry the lines: none of them is cut or shortened when it is
read, and the last one is not empty unless a line feed stands behind it. -/
structure Carries (page : Text) (lines : List Text) : Prop where
  notMem : ∀ line ∈ lines, '\n' ∉ line
  noReturn : ∀ line ∈ lines, endsWithReturn line = false
  ne_nil : endsWithNewline page = true → lines ≠ []
  last_ne : endsWithNewline page = false → lines.getLast? ≠ some []

theorem ofText_join_eq_self_iff : ofText (join lines page) = lines ↔ Carries page lines := by
  constructor
  · intro h
    have hlines : ∀ line ∈ lines, '\n' ∉ line := by
      intro line hline
      rw [← h] at hline
      exact notMem_of_mem_ofText hline
    have hne : endsWithNewline page = true → lines ≠ [] := by
      rintro hend rfl
      -- A line feed that ends no line is read as an empty one.
      rw [join, hend] at h
      exact absurd h (by decide)
    have hlast : endsWithNewline page = false → lines.getLast? ≠ some [] := by
      intro hend hlast
      obtain ⟨front, rfl⟩ := List.getLast?_eq_some_iff.1 hlast
      have hlength := congrArg List.length h
      rw [length_ofText, pieces_join hlines hne, hend, if_neg Bool.false_ne_true,
        dropEmptyLast_concat, List.length_append] at hlength
      exact absurd hlength (Nat.ne_of_lt (Nat.lt_succ_self _))
    rw [ofText_eq, pieces_join_eq_self hlines hne hlast] at h
    exact ⟨hlines, map_chomp_eq_self_iff.1 h, hne, hlast⟩
  · intro h
    rw [ofText_eq, pieces_join_eq_self h.notMem h.ne_nil h.last_ne]
    exact map_chomp_eq_self_iff.2 h.noReturn

/-- **Reading lines and joining them undo each other.** A page without carriage returns is joined
from its lines again. If there are lines, and none holds a line feed or ends with a carriage return,
they are read again exactly when the page they are joined to ends with a line feed or the last of
them is not empty. -/
theorem reading_and_joining_inverse :
    (∀ page, '\r' ∉ page → join (ofText page) page = page) ∧
      ∀ lines page, lines ≠ [] →
        (∀ line ∈ lines, '\n' ∉ line ∧ endsWithReturn line = false) →
          (ofText (join lines page) = lines ↔
            endsWithNewline page = true ∨ lines.getLast? ≠ some []) := by
  refine ⟨fun page hpage => ?_, fun lines page hne hlines => ?_⟩
  · have hnowhere : ∀ w : Text, '\r' ∈ w → ¬w <:+: page := fun w hw h => hpage (h.subset hw)
    refine join_ofText_eq_self_iff.2 ⟨hnowhere _ (by simp), fun h => ?_⟩
    exact hnowhere ['\r'] (by simp) h.isInfix
  · rw [ofText_join_eq_self_iff]
    constructor
    · intro h
      cases hend : endsWithNewline page with
      | true => exact Or.inl rfl
      | false => exact Or.inr (h.last_ne hend)
    · intro h
      exact {
        notMem := fun line hline => (hlines line hline).1
        noReturn := fun line hline => (hlines line hline).2
        ne_nil := fun _ => hne
        last_ne := fun hend => h.resolve_left (by simp [hend]) }

/-- A page with an empty line in it and another one at its end. -/
def agenda : Text := "# Agenda\n\n- Budget\n\n".toList

/-- The lines of the agenda. -/
def agendaLines : List Text := ["# Agenda", "", "- Budget", ""].map String.toList

/-- The empty line at the end is read again with a line feed behind it, and is lost without one. -/
theorem agenda_read_again :
    '\r' ∉ agenda ∧ agendaLines ≠ [] ∧
      (∀ line ∈ agendaLines, '\n' ∉ line ∧ endsWithReturn line = false) ∧
        endsWithNewline agenda = true ∧ join (ofText agenda) agenda = agenda ∧
          ofText (join agendaLines agenda) = agendaLines ∧
            ofText (join agendaLines []) ≠ agendaLines := by
  have hpage : '\r' ∉ agenda := by decide +kernel
  have hne : agendaLines ≠ [] := by decide +kernel
  have hlines : ∀ line ∈ agendaLines, '\n' ∉ line ∧ endsWithReturn line = false := by
    decide +kernel
  have hend : endsWithNewline agenda = true := by decide +kernel
  refine ⟨hpage, hne, hlines, hend, reading_and_joining_inverse.1 agenda hpage, ?_, ?_⟩
  · exact (reading_and_joining_inverse.2 agendaLines agenda hne hlines).2 (Or.inl hend)
  · rw [Ne, reading_and_joining_inverse.2 agendaLines [] hne hlines]
    decide +kernel

end WikiTidy.Lines
