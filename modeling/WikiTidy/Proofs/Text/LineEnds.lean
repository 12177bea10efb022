import WikiTidy.Proofs.Text.Lines

/-!
# The ends of pages

A page that ends with a line feed can be followed by another page: the lines of the two together are
the lines of the one and then those of the other (`ofText_append`), and lines of both are joined one
page after the other (`join_append`).

A page that is joined from lines ends with a line feed if it is told to. It also does when its last
line is empty and not its only one (`endsWithNewline_join_iff`). For the lines that a page is read
in, this is so when nothing but a carriage return stands behind its last line feed
(`endsBare_iff`). Such an end, or a line feed, is called *bare*.

A replacement keeps a bare end, and makes none, when what it finds and what it writes are *bars*:
texts that cannot be looked through from behind (`endsBare_replace_iff`).
-/

namespace WikiTidy.Lines

open Text

variable {lines front back : List Text} {page a b t z line : Text}

theorem endsWithNewline_iff : endsWithNewline page = true ↔ ['\n'] <:+ page := by
  rw [endsWithNewline, beq_iff_eq, List.getLast?_eq_some_iff]
  constructor
  · rintro ⟨start, h⟩
    exact ⟨start, h.symm⟩
  · rintro ⟨start, h⟩
    exact ⟨start, h.symm⟩

theorem endsWithNewline_append (hb : b ≠ []) : endsWithNewline (a ++ b) = endsWithNewline b := by
  rw [endsWithNewline, endsWithNewline, List.getLast?_append_of_ne_nil _ hb]

/-! ## One page behind the other -/

theorem dropEmptyLast_append (hback : back ≠ []) :
    dropEmptyLast (front ++ back) = front ++ dropEmptyLast back := by
  rw [dropEmptyLast, dropEmptyLast, List.getLast?_append_of_ne_nil _ hback]
  split
  · rw [List.dropLast_append_of_ne_nil hback]
  · rfl

theorem pieces_append (a b : Text) : pieces (a ++ '\n' :: b) = split '\n' a ++ pieces b := by
  rw [pieces, split_append_sep, dropEmptyLast_append (split_ne_nil '\n' b)]
  rfl

/-- **Behind a line feed the lines of a page start anew.** -/
theorem ofText_append (ha : a = [] ∨ endsWithNewline a = true) (b : Text) :
    ofText (a ++ b) = ofText a ++ ofText b := by
  rcases ha with rfl | ha
  · rfl
  · obtain ⟨t, rfl⟩ := endsWithNewline_iff.1 ha
    have hnil : pieces [] = [] := rfl
    rw [ofText_eq, ofText_eq, ofText_eq, List.append_assoc, List.singleton_append, pieces_append,
      pieces_append, hnil, List.append_nil, List.map_append]

theorem ofText_ne_nil (h : page ≠ []) : ofText page ≠ [] := by
  intro hlines
  have hpieces : pieces page = [] := by simpa [ofText_eq] using hlines
  have hpage := join_pieces page
  rw [hpieces, join] at hpage
  cases hend : endsWithNewline page with
  | false => exact h (by simpa [hend, Text.join] using hpage.symm)
  | true =>
    obtain rfl : ['\n'] = page := by simpa [hend, Text.join] using hpage
    cases hpieces

theorem textJoin_append (hfront : front ≠ []) (hback : back ≠ []) :
    Text.join ['\n'] (front ++ back) =
      Text.join ['\n'] front ++ '\n' :: Text.join ['\n'] back := by
  obtain ⟨start, last, rfl⟩ := (List.eq_nil_or_concat' front).resolve_left hfront
  obtain ⟨start', last', rfl⟩ := (List.eq_nil_or_concat' back).resolve_left hback
  rw [← List.append_assoc, join_concat, join_concat, join_concat]
  simp

/-- Lines of two pages are joined one page after the other. -/
theorem join_append (ha : endsWithNewline a = true) (hb : b ≠ []) (hfront : front ≠ [])
    (hback : back ≠ []) : join (front ++ back) (a ++ b) = join front a ++ join back b := by
  simp only [join, endsWithNewline_append hb, ha, textJoin_append hfront hback]
  simp

/-! ## The last line -/

theorem notMem_of_mem_ofText (h : line ∈ ofText page) : '\n' ∉ line := by
  obtain ⟨piece, hpiece, rfl⟩ := List.mem_map.1 h
  have hmem := notMem_of_mem_pieces hpiece
  rw [chomp]
  split
  · exact fun hline => hmem (List.dropLast_subset _ hline)
  · exact hmem

/-- The line is the last one, and not the only one. -/
def Trails (line : Text) (lines : List Text) : Prop := 1 < lines.length ∧ lines.getLast? = some line

instance (line : Text) (lines : List Text) : Decidable (Trails line lines) :=
  inferInstanceAs (Decidable (_ ∧ _))

theorem trails_iff : Trails line lines ↔ ∃ front, front ≠ [] ∧ lines = front ++ [line] := by
  constructor
  · rintro ⟨hlength, hlast⟩
    obtain ⟨front, rfl⟩ := List.getLast?_eq_some_iff.1 hlast
    refine ⟨front, ?_, rfl⟩
    rintro rfl
    exact absurd hlength (by simp)
  · rintro ⟨front, hfront, rfl⟩
    have hlength := List.length_pos_iff.2 hfront
    exact ⟨by simpa using hlength, List.getLast?_concat⟩

/-- Lines before another line do not matter to the last one. -/
theorem trails_append_cons (hne : line ≠ z) (front rest : List Text) :
    Trails z (front ++ line :: rest) ↔ Trails z (line :: rest) := by
  have hlast : (front ++ line :: rest).getLast? = (line :: rest).getLast? :=
    List.getLast?_append_of_ne_nil _ (by simp)
  rw [Trails, Trails, hlast]
  refine and_congr_left fun hz => ?_
  have hrest : rest ≠ [] := by
    rintro rfl
    exact hne (Option.some.inj hz)
  have hlength := List.length_pos_iff.2 hrest
  simp only [List.length_append, List.length_cons]
  omega

/-- What stands behind the last line feed of joined lines is their last line. -/
theorem suffix_textJoin_iff (hlines : ∀ line ∈ lines, '\n' ∉ line) (hz : '\n' ∉ z) :
    '\n' :: z <:+ Text.join ['\n'] lines ↔ Trails z lines := by
  rw [trails_iff]
  rcases List.eq_nil_or_concat' lines with rfl | ⟨front, last, rfl⟩
  · simp [Text.join]
  have hlast : '\n' ∉ last := hlines last (by simp)
  rw [join_concat]
  constructor
  · rintro ⟨start, hstart⟩
    have hstart : start ++ ['\n'] ++ z = front.flatMap (· ++ ['\n']) ++ last := by simpa using hstart
    obtain ⟨hstem, rfl⟩ :=
      stem_append_inj (Or.inr ⟨start, rfl⟩) (isStem_flatMap front) hz hlast hstart
    refine ⟨front, ?_, rfl⟩
    rintro rfl
    simp at hstem
  · rintro ⟨front', hne, heq⟩
    obtain ⟨rfl, heq⟩ := List.append_inj' heq rfl
    obtain rfl : last = z := by simpa using heq
    obtain ⟨start, line, rfl⟩ := (List.eq_nil_or_concat' front).resolve_left hne
    exact ⟨start.flatMap (· ++ ['\n']) ++ line, by simp⟩

/-- **When joined lines end with a line feed.** -/
theorem endsWithNewline_join_iff (hlines : ∀ line ∈ lines, '\n' ∉ line) (page : Text) :
    endsWithNewline (join lines page) = true ↔ endsWithNewline page = true ∨ Trails [] lines := by
  cases hpage : endsWithNewline page with
  | true => simp [join, hpage, endsWithNewline_iff]
  | false =>
    have hjoin : join lines page = Text.join ['\n'] lines := by simp [join, hpage]
    rw [hjoin, endsWithNewline_iff, suffix_textJoin_iff hlines (by simp)]
    simp

/-! ## Bare ends -/

/-- Nothing but a carriage return, or nothing at all, stands behind the last line feed. -/
def EndsBare (page : Text) : Prop := ['\n'] <:+ page ∨ ['\n', '\r'] <:+ page

instance (page : Text) : Decidable (EndsBare page) := inferInstanceAs (Decidable (_ ∨ _))

/-- Lines that are joined end bare when their last line is empty or a carriage return. -/
theorem endsBare_join_iff (hlines : ∀ line ∈ lines, '\n' ∉ line) (page : Text) :
    EndsBare (join lines page) ↔
      endsWithNewline page = true ∨ Trails [] lines ∨ Trails ['\r'] lines := by
  cases hpage : endsWithNewline page with
  | true => simp [join, hpage, EndsBare]
  | false =>
    have hjoin : join lines page = Text.join ['\n'] lines := by simp [join, hpage]
    rw [EndsBare, hjoin, suffix_textJoin_iff hlines (by simp), suffix_textJoin_iff hlines (by simp)]
    simp

theorem chomp_eq_nil_iff : chomp line = [] ↔ line = [] ∨ line = ['\r'] := by
  rw [chomp]
  split
  · next hreturn =>
    obtain ⟨start, rfl⟩ := List.getLast?_eq_some_iff.1 hreturn
    simp
  · next hreturn =>
    constructor
    · exact Or.inl
    · rintro (rfl | rfl)
      · rfl
      · exact absurd rfl hreturn

theorem trails_nil_ofText_iff :
    Trails [] (ofText page) ↔ Trails [] (pieces page) ∨ Trails ['\r'] (pieces page) := by
  simp only [Trails, ofText_eq, List.length_map, List.getLast?_map, Option.map_eq_some_iff,
    chomp_eq_nil_iff]
  rw [← and_or_left]
  refine and_congr_right fun _ => ?_
  constructor
  · rintro ⟨line, hline, rfl | rfl⟩
    · exact Or.inl hline
    · exact Or.inr hline
  · rintro (hline | hline)
    · exact ⟨_, hline, Or.inl rfl⟩
    · exact ⟨_, hline, Or.inr rfl⟩

/-- **The lines that a page is read in have an empty last one when the page ends bare.** -/
theorem endsBare_iff : EndsBare page ↔ endsWithNewline page = true ∨ Trails [] (ofText page) := by
  have hpieces : ∀ piece ∈ pieces page, '\n' ∉ piece := fun _ => notMem_of_mem_pieces
  have hjoin := endsBare_join_iff hpieces page
  rwa [join_pieces, ← trails_nil_ofText_iff] at hjoin

/-! ## Bare ends after a replacement -/

theorem suffix_of_suffix_append {c : Char} {u : Text} (hu : c ∉ u) (h : c :: z <:+ u ++ t) :
    c :: z <:+ t := by
  obtain ⟨start, hstart⟩ := h
  rcases List.append_eq_append_iff.1 hstart with ⟨between, rfl, hz⟩ | ⟨between, -, rfl⟩
  · cases between with
    | nil => exact ⟨[], hz⟩
    | cons d between =>
      obtain ⟨rfl, -⟩ := List.cons.inj hz
      exact absurd (by simp) hu
  · exact List.suffix_append between (c :: z)

/-- Something other than carriage returns stands behind the last line feed of the text. -/
def IsBar (w : Text) : Prop := ∃ v c u, w = v ++ c :: u ∧ c ∉ ['\n', '\r'] ∧ '\n' ∉ u

theorem IsBar.append_left {w : Text} (hw : IsBar w) (v : Text) : IsBar (v ++ w) := by
  obtain ⟨v', c, u, rfl, hc, hu⟩ := hw
  exact ⟨v ++ v', c, u, by simp, hc, hu⟩

/-- What stands before a bar does not matter to the end of a page. -/
theorem IsBar.endsBare_append_iff {w : Text} (hw : IsBar w) (a t : Text) :
    EndsBare (a ++ w ++ t) ↔ EndsBare t := by
  obtain ⟨v, c, u, rfl, hc, hu⟩ := hw
  have hcut : a ++ (v ++ c :: u) ++ t = a ++ v ++ [c] ++ (u ++ t) := by simp
  have hend : ∀ z, c ∉ '\n' :: z → ('\n' :: z <:+ a ++ (v ++ c :: u) ++ t ↔ '\n' :: z <:+ t) := by
    intro z hz
    constructor
    · rw [hcut]
      intro h
      have hbehind := suffix_of_suffix_stem_append (Or.inr ⟨a ++ v, rfl⟩) hz h
      exact suffix_of_suffix_append hu hbehind
    · exact fun h => h.trans (List.suffix_append _ t)
  rw [EndsBare, EndsBare, hend [] (by simp_all), hend ['\r'] hc]

/-- **Replacing bars by bars changes nothing about a bare end.** -/
theorem endsBare_replace_iff {α : Type} {p : Pattern α} {write : α → Text}
    (h : ∀ b s a r, p b s = some (a, r) → ∃ w, s = w ++ r ∧ IsBar w ∧ IsBar (write a))
    (s : Text) : EndsBare (replace p write s) ↔ EndsBare s := by
  -- What was written so far and what was read so far cannot be told apart from behind.
  suffices hfrom : ∀ b k new old, (∀ t, EndsBare (new ++ t) ↔ EndsBare (old ++ t)) →
      (EndsBare (new ++ (scanFrom p b k s).flatMap (Piece.render write)) ↔
        EndsBare (old ++ s.drop k)) from hfrom true 0 [] [] fun _ => Iff.rfl
  induction s with
  | nil =>
    intro b k new old hlike
    simpa [scanFrom] using hlike []
  | cons c s ih =>
    intro b k new old hlike
    cases k with
    | succ k => exact ih _ k new old hlike
    | zero =>
      cases hp : p b (c :: s) with
      | none =>
        have hrest := ih (isLineEnd c) 0 (new ++ [c]) (old ++ [c]) fun t => by simpa using hlike (c :: t)
        simpa [scanFrom, hp, Piece.render] using hrest
      | some found =>
        obtain ⟨a, rest⟩ := found
        obtain ⟨w, hsource, hw, hwrite⟩ := h b _ a rest hp
        obtain ⟨d, w, rfl⟩ : ∃ d u, w = d :: u := by
          obtain ⟨v, d, u, rfl, -⟩ := hw
          exact List.exists_cons_of_ne_nil (by simp)
        obtain ⟨rfl, hs⟩ := List.cons.inj hsource
        obtain rfl : s = w ++ rest := hs
        obtain ⟨source, hscan⟩ := exists_scanFrom_eq_hit hp
        have hrest := ih (isLineEnd c) w.length (new ++ write a) (old ++ c :: w) fun t => by
          rw [hwrite.endsBare_append_iff, hw.endsBare_append_iff]
        simpa [hscan, Piece.render] using hrest

end WikiTidy.Lines
