import WikiTidy.Page.Cleanup
import WikiTidy.Proofs.Text.Lines

/-!
# What cleaning up a page takes away

Each of the three cleaning passes leaves a page as it is when it finds nothing to do, and takes
something away otherwise: lines above the first heading (`hasPreamble`), copy markers, and prompt
lines with the carriage returns at line ends (`isLoose`).
-/

namespace WikiTidy.Page

open Text Lines

variable {m : Mark} {page line : Text}

/-! ## Lines above the first heading -/

/-- There is a heading, and the page does not start with it. -/
def hasPreamble (page : Text) : Bool := ((ofText page).findIdx? isHeading).any (0 < ·)

theorem dropPreamble_of_not_hasPreamble (h : hasPreamble page = false) :
    dropPreamble page = page := by
  simp only [dropPreamble]
  split
  · next above hfind => simp [hasPreamble, hfind] at h
  · rfl

/-- A page with lines above its first heading loses a line feed. -/
theorem count_dropPreamble_le (hfeed : m.char '\n' = true)
    (hreturn : ∀ x, m.slash x '\n' = true → m.slash x '\r' = true) (page : Text) :
    m.count (dropPreamble page) + (hasPreamble page).toNat ≤ m.count page := by
  cases hfind : (ofText page).findIdx? isHeading with
  | none => simp [dropPreamble, hasPreamble, hfind]
  | some above =>
    cases above with
    | zero => simp [dropPreamble, hasPreamble, hfind]
    | succ above =>
      have hlength : above + 1 < (ofText page).length :=
        (List.findIdx?_eq_some_iff_getElem.1 hfind).1
      have hsum := sum_ofText_le hreturn page
      rw [← List.take_append_drop (above + 1) (ofText page), List.map_append, List.sum_append] at hsum
      have hpage := count_join m (pieces page) page
      rw [join_pieces] at hpage
      rw [length_ofText] at hlength
      simp only [dropPreamble, hasPreamble, hfind, count_join, hfeed, hpage, List.length_drop,
        length_ofText, Bool.toNat_true, Nat.mul_one]
      simp only [Option.any_some, Nat.zero_lt_succ, decide_true, Bool.toNat_true]
      omega

/-! ## Copy markers -/

theorem copied_eq_some {b : Bool} {s r : Text} {u : Unit} (h : copied b s = some (u, r)) :
    ∃ blanks, s = blanks ++ copiedMarker ++ r := by
  simp only [copied, Option.map_eq_some_iff, Prod.mk.injEq] at h
  obtain ⟨rest, hrest, -, rfl⟩ := h
  refine ⟨s.takeWhile isBlank, ?_⟩
  rw [List.append_assoc, ← after?_eq_some_iff.1 hrest, trimStart, List.takeWhile_append_dropWhile]

theorem dropCopied_of_hits_eq_zero (h : hits copied page = 0) : dropCopied page = page :=
  replace_of_hits_eq_zero _ h

/-- Every copy marker takes its exclamation mark with it. -/
theorem count_dropCopied_le {cs : List Char} (hcs : '/' ∉ cs) (hbang : '!' ∈ cs) (page : Text) :
    (Mark.ofChars cs).count (dropCopied page) + hits copied page ≤ (Mark.ofChars cs).count page := by
  rw [← Nat.one_mul (hits copied page)]
  refine (Mark.falls_replace ?_ page).count_le
  intro b s u r h
  obtain ⟨blanks, rfl⟩ := copied_eq_some h
  have hmem : '!' ∈ blanks ++ copiedMarker := List.mem_append_right _ (by decide +kernel)
  refine ⟨blanks ++ copiedMarker, List.ne_nil_of_mem hmem, rfl, Mark.falls_ofChars hcs ?_⟩
  rw [List.countP_nil, Nat.zero_add]
  exact List.countP_pos_iff.2 ⟨'!', hmem, by simpa using hbang⟩

/-! ## Prompt lines -/

/-- The piece is a prompt, or a carriage return ends it. -/
def isLoose (piece : Text) : Bool := isPrompt (chomp piece) || endsWithReturn piece

theorem ofText_eq_pieces_of_not_isLoose (h : ∀ piece ∈ pieces page, isLoose piece = false) :
    ofText page = pieces page :=
  ofText_eq_pieces_iff.2 fun piece hpiece => (Bool.or_eq_false_iff.1 (h piece hpiece)).2

theorem dropPrompts_of_not_isLoose (h : ∀ piece ∈ pieces page, isLoose piece = false) :
    dropPrompts page = page := by
  have hlines := ofText_eq_pieces_of_not_isLoose h
  have hkeep : (ofText page).filter (fun line => !isPrompt line) = ofText page := by
    rw [List.filter_eq_self, ofText_eq]
    intro line hline
    obtain ⟨piece, hpiece, rfl⟩ := List.mem_map.1 hline
    rw [(Bool.or_eq_false_iff.1 (h piece hpiece)).1]
    rfl
  rw [dropPrompts, hkeep, hlines, join_pieces]

/-- What a prompt line says. -/
theorem mem_of_isPrompt (h : isPrompt line = true) {c : Char} (hc : c ∈ promptStart) : c ∈ line := by
  have htrim : c ∈ trim line := (startsWith_iff.1 h).subset hc
  simp only [trim, trimEnd, trimStart, List.mem_reverse] at htrim
  exact (List.dropWhile_sublist _).subset
    (List.mem_reverse.1 ((List.dropWhile_sublist _).subset htrim))

/-- Lines that are kept count no more than the pieces they come from. -/
theorem count_dropPrompts_add_le (loss : Text → Nat)
    (hprompt : ∀ piece, isPrompt (chomp piece) = true → loss piece ≤ m.count piece)
    (hline : ∀ piece, isPrompt (chomp piece) = false →
      m.count (chomp piece) + loss piece ≤ m.count piece) (page : Text) :
    m.count (dropPrompts page) + ((pieces page).map loss).sum ≤ m.count page := by
  have hsum : ∀ ps : List Text,
      (((ps.map chomp).filter fun line => !isPrompt line).map m.count).sum + (ps.map loss).sum ≤
        (ps.map m.count).sum := by
    intro ps
    induction ps with
    | nil => simp
    | cons piece ps ih =>
      cases h : isPrompt (chomp piece) with
      | true =>
        have hpiece := hprompt piece h
        simp only [List.map_cons, List.filter_cons, h, Bool.not_true, Bool.false_eq_true, if_false,
          List.sum_cons]
        omega
      | false =>
        have hpiece := hline piece h
        simp only [List.map_cons, List.filter_cons, h, Bool.not_false, if_true, List.sum_cons]
        omega
  refine count_join_le ?_ (hsum (pieces page))
  exact (List.length_filter_le _ _).trans_eq (length_ofText page)

theorem count_dropPrompts_le (hreturn : ∀ x, m.slash x '\n' = true → m.slash x '\r' = true)
    (page : Text) : m.count (dropPrompts page) ≤ m.count page := by
  refine Nat.le_of_add_right_le (count_dropPrompts_add_le (fun _ => 0) ?_ ?_ page)
  · exact fun piece _ => Nat.zero_le _
  · exact fun piece _ => Nat.le_of_add_right_le (count_chomp_le hreturn piece)

/-- Every loose piece takes a carriage return or a letter of a prompt with it. -/
theorem count_dropPrompts_isLoose_le {cs : List Char} (hcs : '/' ∉ cs) (hletter : 'v' ∈ cs)
    (hcr : '\r' ∈ cs) (page : Text) :
    (Mark.ofChars cs).count (dropPrompts page) + (pieces page).countP isLoose ≤
      (Mark.ofChars cs).count page := by
  have hchomp := fun piece => count_chomp_le (m := Mark.ofChars cs) (fun x h => h) piece
  have hmem : (Mark.ofChars cs).char '\r' = true := by simpa [Mark.ofChars] using hcr
  have hloose : ∀ ps : List Text,
      ps.countP isLoose = (ps.map fun piece => (isLoose piece).toNat).sum := by
    intro ps
    induction ps with
    | nil => rfl
    | cons piece ps ih =>
      rw [List.countP_cons, ih, List.map_cons, List.sum_cons, Nat.add_comm]
      cases isLoose piece <;> rfl
  rw [hloose]
  refine count_dropPrompts_add_le _ ?_ ?_ page
  · intro piece h
    have hpos : 0 < (Mark.ofChars cs).count (chomp piece) := by
      rw [Mark.count, Mark.tally_ofChars hcs]
      refine List.countP_pos_iff.2 ⟨'v', mem_of_isPrompt h (by decide +kernel), by simpa using hletter⟩
    have hpiece := hchomp piece
    have hone := (isLoose piece).toNat_le
    omega
  · intro piece h
    have hpiece := hchomp piece
    rw [hmem, Bool.and_true] at hpiece
    rwa [isLoose, h, Bool.false_or]

end WikiTidy.Page
