import Mathlib.Data.List.Basic
import WikiTidy.Text.Basic

/-!
# Taking a text apart and putting it together

`split` cuts at every separator, `join` writes the separators between the pieces, and `splitLast`
cuts once, behind the last separator. A cut at a separator that is known to stand in the text
splits the whole work in two (`split_append_sep`), so a text can be followed piece by piece.

Main results: `mem_split_iff`, which says where the pieces stand in the text, and
`splitLast_eq_iff`, which says which two parts `splitLast` finds.
-/

namespace WikiTidy.Text

variable {sep : Char}

/-! ## Cutting at every separator -/

theorem split_of_notMem {s : Text} (h : sep ∉ s) : split sep s = [s] := by
  induction s with
  | nil => rfl
  | cons c s ih =>
    simp only [List.mem_cons, not_or] at h
    simp only [split, if_neg (Ne.symm h.1), ih h.2]

theorem split_append_sep (a b : Text) :
    split sep (a ++ sep :: b) = split sep a ++ split sep b := by
  induction a with
  | nil => simp [split]
  | cons c a ih =>
    by_cases hc : c = sep
    · simp only [List.cons_append, split, if_pos hc, ih]
    · simp only [List.cons_append, split, if_neg hc, ih]
      cases h : split sep a with
      | nil => exact absurd h (split_ne_nil sep a)
      | cons piece pieces => rfl

/-- A text without a separator stays in front of the first piece. -/
theorem split_append_of_notMem {a : Text} (h : sep ∉ a) (s : Text) :
    split sep (a ++ s) = (split sep s).modifyHead (a ++ ·) := by
  obtain ⟨first, rest, hcut⟩ := List.exists_cons_of_ne_nil (split_ne_nil sep s)
  induction a with
  | nil => simp [hcut]
  | cons c a ih =>
    simp only [List.mem_cons, not_or] at h
    rw [List.cons_append, split, if_neg (Ne.symm h.1), ih h.2, hcut]
    rfl

theorem notMem_of_mem_split {s piece : Text} (h : piece ∈ split sep s) : sep ∉ piece := by
  induction s generalizing piece with
  | nil =>
    obtain rfl : piece = [] := by simpa [split] using h
    simp
  | cons c s ih =>
    by_cases hc : c = sep
    · rw [split, if_pos hc] at h
      rcases List.mem_cons.1 h with rfl | h
      · simp
      · exact ih h
    · obtain ⟨first, rest, hcut⟩ := List.exists_cons_of_ne_nil (split_ne_nil sep s)
      simp only [split, if_neg hc, hcut] at h
      rw [hcut] at ih
      rcases List.mem_cons.1 h with rfl | h
      · simpa [Ne.symm hc] using ih List.mem_cons_self
      · exact ih (List.mem_cons_of_mem _ h)

/-! ## Joining -/

/-- The last piece has no separator behind it. -/
theorem join_concat (sep : Text) (pieces : List Text) (last : Text) :
    join sep (pieces ++ [last]) = pieces.flatMap (· ++ sep) ++ last := by
  induction pieces with
  | nil => simp [join, List.intercalate]
  | cons piece pieces ih =>
    have hne : pieces ++ [last] ≠ [] := by simp
    obtain ⟨p, ps, hp⟩ := List.exists_cons_of_ne_nil hne
    rw [hp] at ih
    simp only [List.cons_append, hp, List.flatMap_cons, List.append_assoc, ← ih]
    simp [join, List.intercalate]

theorem split_stem (pieces : List Text) (last : Text) (hpieces : ∀ piece ∈ pieces, sep ∉ piece)
    (hlast : sep ∉ last) : split sep (pieces.flatMap (· ++ [sep]) ++ last) = pieces ++ [last] := by
  induction pieces with
  | nil => simpa using split_of_notMem hlast
  | cons piece pieces ih =>
    obtain ⟨hpiece, hpieces⟩ := List.forall_mem_cons.1 hpieces
    rw [List.flatMap_cons, List.append_assoc, List.append_assoc, List.singleton_append,
      split_append_sep, split_of_notMem hpiece, ih hpieces]
    rfl

/-- **Pieces without a separator are found again.** -/
theorem split_join {pieces : List Text} (hne : pieces ≠ [])
    (hpieces : ∀ piece ∈ pieces, sep ∉ piece) : split sep (join [sep] pieces) = pieces := by
  obtain ⟨init, last, rfl⟩ := (List.eq_nil_or_concat' pieces).resolve_left hne
  rw [join_concat]
  exact split_stem init last (fun piece h => hpieces piece (by simp [h])) (hpieces last (by simp))

/-- Pieces without a separator are told apart by what is joined from them. -/
theorem join_inj {pieces others : List Text} (hne : pieces ≠ []) (hne' : others ≠ [])
    (hpieces : ∀ piece ∈ pieces, sep ∉ piece) (hothers : ∀ piece ∈ others, sep ∉ piece) :
    join [sep] pieces = join [sep] others ↔ pieces = others := by
  constructor
  · intro h
    rw [← split_join hne hpieces, h, split_join hne' hothers]
  · exact congrArg (join [sep])

theorem join_cons_cons (sep : Char) (a b : Text) (pieces : List Text) :
    join [sep] (a :: b :: pieces) = a ++ sep :: join [sep] (b :: pieces) := by
  simp [join, List.intercalate]

/-- Cutting and joining gives the text back. -/
theorem join_split (sep : Char) (s : Text) : join [sep] (split sep s) = s := by
  induction s with
  | nil => rfl
  | cons c s ih =>
    obtain ⟨first, rest, hcut⟩ := List.exists_cons_of_ne_nil (split_ne_nil sep s)
    rw [hcut] at ih
    by_cases hc : c = sep
    · simp only [split, if_pos hc, hcut]
      rw [join_cons_cons, ih, hc]
      rfl
    · simp only [split, if_neg hc, hcut]
      cases rest with
      | nil => simpa [join, List.intercalate] using ih
      | cons second rest =>
        rw [join_cons_cons] at ih ⊢
        rw [← ih]
        rfl

/-! ## Runs -/

theorem takeWhile_append_stop {q : Char → Bool} {a r : Text} (ha : ∀ c ∈ a, q c = true)
    (hr : ∀ c ∈ r.head?, q c = false) : (a ++ r).takeWhile q = a := by
  rw [List.takeWhile_append_of_pos ha]
  cases r with
  | nil => simp
  | cons c r => simp [hr c (by simp)]

theorem dropWhile_append_stop {q : Char → Bool} {a r : Text} (ha : ∀ c ∈ a, q c = true)
    (hr : ∀ c ∈ r.head?, q c = false) : (a ++ r).dropWhile q = r := by
  rw [List.dropWhile_append_of_pos ha]
  cases r with
  | nil => simp
  | cons c r => simp [hr c (by simp)]

/-- What stands behind a character that ends a run does not matter to it. -/
theorem takeWhile_append_cons {q : Char → Bool} {c : Char} (hc : q c = false) (a r : Text) :
    (a ++ c :: r).takeWhile q = a.takeWhile q := by
  induction a with
  | nil => simp [hc]
  | cons d a ih => by_cases hd : q d <;> simp [hd, ih]

theorem dropWhile_append_cons {q : Char → Bool} {c : Char} (hc : q c = false) (a r : Text) :
    (a ++ c :: r).dropWhile q = a.dropWhile q ++ c :: r := by
  induction a with
  | nil => simp [hc]
  | cons d a ih => by_cases hd : q d <;> simp [hd, ih]

/-- A run is read wherever it is followed by something else. -/
theorem run?_append {q : Char → Bool} {a r : Text} (hne : a ≠ []) (ha : ∀ c ∈ a, q c = true)
    (hr : ∀ c ∈ r.head?, q c = false) : run? q (a ++ r) = some (a, r) := by
  rw [run?, takeWhile_append_stop ha hr, dropWhile_append_stop ha hr]
  cases a with
  | nil => exact absurd rfl hne
  | cons c a => rfl

/-! ## Cutting behind the last separator -/

/-- A text that ends with a separator, or an empty one. -/
def IsStem (sep : Char) (s : Text) : Prop := s = [] ∨ ∃ t, s = t ++ [sep]

theorem isStem_append {s t : Text} (hs : IsStem sep s) (ht : IsStem sep t) :
    IsStem sep (s ++ t) := by
  rcases ht with rfl | ⟨t, rfl⟩
  · simpa using hs
  · exact Or.inr ⟨s ++ t, by simp⟩

theorem isStem_flatMap (pieces : List Text) : IsStem sep (pieces.flatMap (· ++ [sep])) := by
  induction pieces with
  | nil => exact Or.inl rfl
  | cons piece pieces ih => exact isStem_append (Or.inr ⟨piece, rfl⟩) ih

theorem all_ne_of_notMem {s : Text} (h : sep ∉ s) : ∀ c ∈ s, (c != sep) = true := by
  intro c hc
  simpa using ne_of_mem_of_not_mem hc h

theorem takeWhile_ne_of_notMem {s t : Text} (h : sep ∉ s) :
    (s ++ sep :: t).takeWhile (· != sep) = s :=
  takeWhile_append_stop (all_ne_of_notMem h) (by simp)

theorem dropWhile_ne_of_notMem {s t : Text} (h : sep ∉ s) :
    (s ++ sep :: t).dropWhile (· != sep) = sep :: t :=
  dropWhile_append_stop (all_ne_of_notMem h) (by simp)

/-- A text has only one first separator. -/
theorem append_sep_inj {a b r t : Text} (ha : sep ∉ a) (hb : sep ∉ b)
    (h : a ++ sep :: r = b ++ sep :: t) : a = b ∧ r = t := by
  obtain rfl : a = b := by
    rw [← takeWhile_ne_of_notMem (t := r) ha, h, takeWhile_ne_of_notMem hb]
  exact ⟨rfl, (List.cons.inj (List.append_cancel_left h)).2⟩

theorem takeWhile_ne_eq_self {s : Text} (h : sep ∉ s) : s.takeWhile (· != sep) = s := by
  simpa using takeWhile_append_stop (r := []) (all_ne_of_notMem h) (by simp)

theorem dropWhile_ne_eq_nil {s : Text} (h : sep ∉ s) : s.dropWhile (· != sep) = [] := by
  simpa using dropWhile_append_stop (r := []) (all_ne_of_notMem h) (by simp)

/-- **The cut behind the last separator** is found wherever a stem meets a text without one. -/
theorem splitLast_append {s n : Text} (hs : IsStem sep s) (hn : sep ∉ n) :
    splitLast sep (s ++ n) = (s, n) := by
  have hrev : sep ∉ n.reverse := by simpa using hn
  have htail : (s ++ n).reverse.takeWhile (· != sep) = n.reverse := by
    rcases hs with rfl | ⟨t, rfl⟩
    · rw [List.nil_append, takeWhile_ne_eq_self hrev]
    · rw [List.reverse_append, List.reverse_append, List.reverse_singleton,
        List.singleton_append, takeWhile_ne_of_notMem hrev]
  simp only [splitLast, htail, List.reverse_reverse, List.length_append, Nat.add_sub_cancel,
    List.take_left]

/-- Every text is a stem and a text without a separator. -/
theorem exists_eq_stem_append (sep : Char) (s : Text) :
    ∃ t n, IsStem sep t ∧ sep ∉ n ∧ s = t ++ n := by
  induction s with
  | nil => exact ⟨[], [], Or.inl rfl, by simp, rfl⟩
  | cons c s ih =>
    obtain ⟨t, n, ht, hn, rfl⟩ := ih
    by_cases hc : c = sep
    · exact ⟨c :: t, n, isStem_append (s := [c]) (Or.inr ⟨[], by simp [hc]⟩) ht, hn, rfl⟩
    · rcases ht with rfl | ⟨t, rfl⟩
      · exact ⟨[], c :: n, Or.inl rfl, by simpa [hc] using ⟨Ne.symm hc, hn⟩, rfl⟩
      · exact ⟨c :: t ++ [sep], n, Or.inr ⟨c :: t, rfl⟩, hn, by simp⟩

/-- **Where the pieces stand.** A piece holds no separator, starts behind one or with the text, and
ends before one or with the text. -/
theorem mem_split_iff {s piece : Text} :
    piece ∈ split sep s ↔
      sep ∉ piece ∧ ∃ front back, IsStem sep front ∧ (back = [] ∨ ∃ t, back = sep :: t) ∧
        s = front ++ piece ++ back := by
  constructor
  · intro h
    refine ⟨notMem_of_mem_split h, ?_⟩
    have hs := join_split sep s
    obtain ⟨before, behind, hsplit⟩ := List.append_of_mem h
    rw [hsplit] at hs
    rcases List.eq_nil_or_concat' behind with rfl | ⟨behind, last, rfl⟩
    · rw [join_concat] at hs
      exact ⟨_, [], isStem_flatMap before, Or.inl rfl, by simp [hs]⟩
    · rw [← List.cons_append, ← List.append_assoc, join_concat] at hs
      refine ⟨_, sep :: (behind.flatMap (· ++ [sep]) ++ last), isStem_flatMap before,
        Or.inr ⟨_, rfl⟩, ?_⟩
      simp [← hs]
  · rintro ⟨hpiece, front, back, hfront, hback, rfl⟩
    have hhead : piece ∈ split sep (piece ++ back) := by
      rcases hback with rfl | ⟨t, rfl⟩
      · simp [split_of_notMem hpiece]
      · simp [split_append_sep, split_of_notMem hpiece]
    rcases hfront with rfl | ⟨t, rfl⟩
    · simpa using hhead
    · rw [List.append_assoc, List.append_assoc, List.singleton_append, split_append_sep]
      exact List.mem_append_right _ hhead

theorem subset_of_mem_split {s piece : Text} (h : piece ∈ split sep s) : piece ⊆ s := by
  obtain ⟨-, front, back, -, -, rfl⟩ := mem_split_iff.1 h
  intro c hc
  simp [hc]

/-- A word without a separator at the end of a text stands behind every stem. -/
theorem suffix_of_suffix_stem_append {s n w : Text} (hs : IsStem sep s) (hw : sep ∉ w)
    (h : w <:+ s ++ n) : w <:+ n := by
  obtain ⟨a, ha⟩ := h
  rcases List.append_eq_append_iff.1 ha with ⟨b, rfl, rfl⟩ | ⟨b, -, rfl⟩
  · rcases hs with hnil | ⟨t, ht⟩
    · obtain ⟨-, rfl⟩ := List.append_eq_nil_iff.1 hnil
      exact List.suffix_refl n
    · rcases List.eq_nil_or_concat' b with rfl | ⟨b, c, rfl⟩
      · exact List.suffix_refl n
      · rw [← List.append_assoc] at ht
        obtain rfl : c = sep := by simpa using (List.append_inj' ht rfl).2
        exact absurd (by simp) hw
  · exact List.suffix_append b w

theorem splitLast_eq_iff {s t n : Text} :
    splitLast sep s = (t, n) ↔ s = t ++ n ∧ IsStem sep t ∧ sep ∉ n := by
  constructor
  · intro h
    obtain ⟨t', n', ht, hn, rfl⟩ := exists_eq_stem_append sep s
    rw [splitLast_append ht hn, Prod.mk.injEq] at h
    obtain ⟨rfl, rfl⟩ := h
    exact ⟨rfl, ht, hn⟩
  · rintro ⟨rfl, ht, hn⟩
    exact splitLast_append ht hn

theorem splitLast_spec (sep : Char) (s : Text) :
    s = (splitLast sep s).1 ++ (splitLast sep s).2 ∧ IsStem sep (splitLast sep s).1 ∧
      sep ∉ (splitLast sep s).2 :=
  splitLast_eq_iff.1 rfl

/-- A text has only one stem. -/
theorem stem_append_inj {s s' n n' : Text} (hs : IsStem sep s) (hs' : IsStem sep s')
    (hn : sep ∉ n) (hn' : sep ∉ n') (h : s ++ n = s' ++ n') : s = s' ∧ n = n' := by
  have hcut := splitLast_append hs hn
  rw [h, splitLast_append hs' hn', Prod.mk.injEq] at hcut
  exact ⟨hcut.1.symm, hcut.2.symm⟩

end WikiTidy.Text
