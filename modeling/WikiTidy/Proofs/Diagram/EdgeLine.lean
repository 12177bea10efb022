import Mathlib.Data.Option.Basic
import WikiTidy.Diagram.Edge
import WikiTidy.Proofs.Text.Split

/-!
# The lines that state an edge

**Theorem (`parse_eq_some_iff`).** A line states the edge `e` exactly when the parts of `e` are well
formed and the line spells them in order with blanks between them. So an edge that is written is
read back (`parse_render`), whatever well-formed label it carries, an empty one included.

Every part starts with a character that cannot belong to the part before it: blanks, the characters
of names, those of shafts, the bar and the quote are all told apart. Each reader therefore stops
where the next part starts.
-/

namespace WikiTidy.Diagram

open Text

/-! ## Classes of characters -/

theorem toNat_le {a c : Char} (h : a ≤ c) : a.toNat ≤ c.toNat := UInt32.le_iff_toNat_le.1 h

theorem bounds_of_isWordChar {c : Char} (h : isWordChar c = true) :
    0x30 ≤ c.toNat ∧ c.toNat ≤ 0x7A := by
  simp only [isWordChar, isDigit, Bool.or_eq_true, Bool.and_eq_true, decide_eq_true_eq,
    beq_iff_eq] at h
  rcases h with ((⟨hl, hu⟩ | ⟨hl, hu⟩) | ⟨hl, hu⟩) | rfl
  · exact ⟨Nat.le_trans (by decide) (toNat_le hl), Nat.le_trans (toNat_le hu) (by decide)⟩
  · exact ⟨Nat.le_trans (by decide) (toNat_le hl), Nat.le_trans (toNat_le hu) (by decide)⟩
  · exact ⟨Nat.le_trans (by decide) (toNat_le hl), Nat.le_trans (toNat_le hu) (by decide)⟩
  · decide

theorem isBlank_of_isWordChar {c : Char} (h : isWordChar c = true) : isBlank c = false := by
  obtain ⟨hl, hu⟩ := bounds_of_isWordChar h
  simp only [isBlank, Bool.or_eq_false_iff, Bool.and_eq_false_iff, decide_eq_false_iff_not,
    beq_eq_false_iff_ne]
  omega

theorem isWordChar_of_isBlank {c : Char} (h : isBlank c = true) : isWordChar c = false := by
  rw [Bool.eq_false_iff]
  intro hw
  rw [isBlank_of_isWordChar hw] at h
  exact absurd h (by decide)

theorem isShaft_iff {c : Char} : isShaft c = true ↔ c = '-' ∨ c = '.' ∨ c = '=' := by
  simp [isShaft, or_assoc]

/-! ## Blanks -/

/-- A text of blanks. -/
def Blank (w : Text) : Prop := ∀ c ∈ w, isBlank c = true

theorem blank_nil : Blank [] := by simp [Blank]

theorem blank_space : Blank [' '] := by
  intro c hc
  rw [List.mem_singleton.1 hc]
  decide

theorem blank_takeWhile (s : Text) : Blank (s.takeWhile isBlank) :=
  List.all_eq_true.1 List.all_takeWhile

theorem Blank.notMem {w : Text} {c : Char} (hw : Blank w) (hc : isBlank c = false) : c ∉ w := by
  intro h
  rw [hw c h] at hc
  cases hc

/-- The text does not start with a blank. -/
def Flush (s : Text) : Prop := ∀ c ∈ s.head?, isBlank c = false

theorem trimStart_append {w s : Text} (hw : Blank w) (hs : Flush s) : trimStart (w ++ s) = s :=
  dropWhile_append_stop hw hs

theorem flush_trimStart (s : Text) : Flush (trimStart s) := by
  intro c hc
  have hstop := List.head?_dropWhile_not isBlank s
  rw [show (s.dropWhile isBlank).head? = some c from hc] at hstop
  simpa using hstop

/-- The blanks in front of a text can be cut off. -/
theorem exists_eq_blank_append (s : Text) : ∃ w, Blank w ∧ s = w ++ trimStart s :=
  ⟨s.takeWhile isBlank, blank_takeWhile s, List.takeWhile_append_dropWhile.symm⟩

/-! ## The parts of an edge -/

/-- The name of a node. -/
def IsWord (w : Text) : Prop := w ≠ [] ∧ ∀ c ∈ w, isWordChar c = true

/-- A shaft with its head. -/
def IsArrow (a : Text) : Prop :=
  ∃ shaft, shaft ≠ [] ∧ (∀ c ∈ shaft, isShaft c = true) ∧ a = shaft ++ ['>']

theorem IsWord.flush {w : Text} (h : IsWord w) (s : Text) : Flush (w ++ s) := by
  obtain ⟨hne, hall⟩ := h
  obtain ⟨c, w, rfl⟩ := List.exists_cons_of_ne_nil hne
  simpa [Flush] using isBlank_of_isWordChar (hall c List.mem_cons_self)

theorem IsWord.notMem {w : Text} {c : Char} (hw : IsWord w) (hc : isWordChar c = false) :
    c ∉ w := by
  intro h
  rw [hw.2 c h] at hc
  cases hc

theorem IsArrow.notMem {a : Text} {c : Char} (ha : IsArrow a) (hc : isShaft c = false)
    (hhead : c ≠ '>') : c ∉ a := by
  obtain ⟨shaft, -, hall, rfl⟩ := ha
  intro h
  rcases List.mem_append.1 h with h | h
  · rw [hall c h] at hc
    cases hc
  · exact hhead (List.mem_singleton.1 h)

theorem IsArrow.head {a : Text} (h : IsArrow a) (s : Text) :
    ∃ c r, a ++ s = c :: r ∧ isShaft c = true := by
  obtain ⟨shaft, hne, hall, rfl⟩ := h
  obtain ⟨c, shaft, rfl⟩ := List.exists_cons_of_ne_nil hne
  exact ⟨c, shaft ++ ['>'] ++ s, rfl, hall c List.mem_cons_self⟩

theorem IsArrow.flush {a : Text} (h : IsArrow a) (s : Text) : Flush (a ++ s) := by
  obtain ⟨c, r, hcr, hc⟩ := h.head s
  rw [Flush, hcr]
  rcases isShaft_iff.1 hc with rfl | rfl | rfl <;> simp <;> decide

theorem run?_word {w s : Text} (hw : IsWord w) (hs : ∀ c ∈ s.head?, isWordChar c = false) :
    run? isWordChar (w ++ s) = some (w, s) :=
  run?_append hw.1 hw.2 hs

/-- An arrow is read to its end, so it is told from what stands behind it. -/
theorem arrow?_eq_some_iff {s a r : Text} :
    arrow? s = some (a, r) ↔ IsArrow a ∧ s = a ++ r := by
  constructor
  · intro h
    simp only [arrow?, Option.bind_eq_bind, Option.bind_eq_some_iff] at h
    obtain ⟨⟨shaft, s₁⟩, hrun, s₂, hhead, he⟩ := h
    obtain ⟨rfl, hne, hall, -⟩ := run?_eq_some hrun
    obtain ⟨rfl, rfl⟩ : shaft ++ ['>'] = a ∧ s₂ = r := by simpa using he
    exact ⟨⟨shaft, hne, hall, rfl⟩, by rw [show s₁ = ['>'] ++ s₂ from after?_eq_some_iff.1 hhead,
      List.append_assoc]⟩
  · rintro ⟨⟨shaft, hne, hall, rfl⟩, rfl⟩
    have hrun : run? isShaft (shaft ++ '>' :: r) = some (shaft, '>' :: r) :=
      run?_append hne hall (by simp [isShaft])
    simp [arrow?, hrun, after?]

/-! ## Labels -/

theorem label?_of_head {s : Text} (h : s.head? ≠ some '|') : label? s = some (none, s) := by
  unfold label?
  split
  · simp at h
  · rfl

theorem label?_render {l w s : Text} (hl : '"' ∉ l) (hw : Blank w) (hs : Flush s) :
    label? (Edge.renderLabel (some l) ++ (w ++ s)) = some (some l, s) := by
  have htake : (l ++ '"' :: '|' :: (w ++ s)).takeWhile (· != '"') = l := takeWhile_ne_of_notMem hl
  have hdrop : (l ++ '"' :: '|' :: (w ++ s)).dropWhile (· != '"') = '"' :: '|' :: (w ++ s) :=
    dropWhile_ne_of_notMem hl
  simp [label?, Edge.renderLabel, after?, htake, hdrop, trimStart_append hw hs]

/-- What is read as a label is the label with blanks behind it, and no label takes no blanks. -/
theorem label?_eq_some {s r : Text} {label : Option Text} (h : label? s = some (label, r)) :
    (∀ l ∈ label, '"' ∉ l) ∧
      ∃ w, Blank w ∧ (label = none → w = []) ∧ s = Edge.renderLabel label ++ (w ++ r) := by
  unfold label? at h
  split at h
  · next s =>
    simp only [Option.bind_eq_bind, Option.bind_eq_some_iff] at h
    obtain ⟨s₁, hopen, s₂, hclose, he⟩ := h
    obtain ⟨rfl, rfl⟩ : some (s₁.takeWhile (· != '"')) = label ∧ trimStart s₂ = r := by
      simpa using he
    obtain rfl : s = '"' :: s₁ := after?_eq_some_iff.1 hopen
    have hrest : s₁.dropWhile (· != '"') = '"' :: '|' :: s₂ := after?_eq_some_iff.1 hclose
    have hline : s₁ = s₁.takeWhile (· != '"') ++ '"' :: '|' :: s₂ := by
      rw [← hrest, List.takeWhile_append_dropWhile]
    obtain ⟨w, hw, hs₂⟩ := exists_eq_blank_append s₂
    refine ⟨?_, w, hw, by simp, ?_⟩
    · intro l hl hq
      obtain rfl : s₁.takeWhile (· != '"') = l := by simpa using hl
      have := List.all_eq_true.1 List.all_takeWhile _ hq
      simp at this
    · rw [← hs₂]
      simpa [Edge.renderLabel] using hline
  · obtain ⟨rfl, rfl⟩ : none = label ∧ s = r := by simpa using h
    exact ⟨by simp, [], blank_nil, fun _ => rfl, by simp [Edge.renderLabel]⟩

/-! ## Whole lines -/

namespace Edge

/-- The parts of the edge are what they are called, and no quote ends its label early. -/
structure WellFormed (e : Edge) : Prop where
  indent : Blank e.indent
  source : IsWord e.source
  arrow : IsArrow e.arrow
  label : ∀ l ∈ e.label, '"' ∉ l
  destination : IsWord e.destination

/-- The line has the parts of the edge in order, with blanks between them and at the end. -/
def Spells (e : Edge) (line : Text) : Prop :=
  ∃ w₁ w₂ w₃ w₄, Blank w₁ ∧ Blank w₂ ∧ Blank w₃ ∧ Blank w₄ ∧ (e.label = none → w₃ = []) ∧
    line = e.indent ++ (e.source ++ (w₁ ++ (e.arrow ++ (w₂ ++
      (renderLabel e.label ++ (w₃ ++ (e.destination ++ w₄)))))))

theorem spells_render (e : Edge) : e.Spells e.render := by
  cases h : e.label with
  | none =>
    refine ⟨[' '], [' '], [], [], blank_space, blank_space, blank_nil, blank_nil, fun _ => rfl, ?_⟩
    simp [render, h, renderLabel]
  | some l =>
    refine ⟨[' '], [], [' '], [], blank_space, blank_nil, blank_space, blank_nil, by simp [h], ?_⟩
    simp [render, h, renderLabel]

/-- The reader takes a line apart into the parts that spell it. -/
theorem spells_of_parse {line : Text} {p : Int} {e : Edge} (h : parse line p = some e) :
    e.position = p ∧ e.WellFormed ∧ e.Spells line := by
  simp only [parse, Option.bind_eq_bind, Option.bind_eq_some_iff] at h
  obtain ⟨⟨source, s₁⟩, hsource, ⟨arrow, s₂⟩, harrow, ⟨label, s₃⟩, hlabel, ⟨destination, s₄⟩,
    hdestination, _, hend, he⟩ := h
  obtain rfl : Edge.mk p (line.takeWhile isBlank) source destination arrow label = e := by
    simpa using he
  obtain ⟨hline, hsne, hsall, -⟩ := run?_eq_some hsource
  obtain ⟨w₁, hw₁, hs₁⟩ := exists_eq_blank_append s₁
  obtain ⟨ha, hs₁'⟩ := arrow?_eq_some_iff.1 harrow
  obtain ⟨w₂, hw₂, hs₂⟩ := exists_eq_blank_append s₂
  obtain ⟨hquote, w₃, hw₃, hnone, hs₂'⟩ := label?_eq_some hlabel
  obtain ⟨rfl, hdne, hdall, -⟩ := run?_eq_some hdestination
  have hw₄ : Blank s₄ := List.all_eq_true.1 ((Option.guard_eq_some' ()).1 hend)
  refine ⟨rfl, ⟨blank_takeWhile line, ⟨hsne, hsall⟩, ha, hquote, hdne, hdall⟩,
    w₁, w₂, w₃, s₄, hw₁, hw₂, hw₃, hw₄, hnone, ?_⟩
  rw [← hs₂', ← hs₂, ← hs₁', ← hs₁, ← hline, List.takeWhile_append_dropWhile]

theorem head_of_blank {w s : Text} (hw : Blank w) (hs : ∀ c ∈ s.head?, isWordChar c = false) :
    ∀ c ∈ (w ++ s).head?, isWordChar c = false := by
  cases w with
  | nil => exact hs
  | cons b w =>
    intro c hc
    obtain rfl : b = c := by simpa using hc
    exact isWordChar_of_isBlank (hw b List.mem_cons_self)

/-- Each reader stops where the next part starts, because no part can go on with its first
character. -/
theorem parse_of_spells {line : Text} {e : Edge} (he : e.WellFormed) (h : e.Spells line) :
    parse line e.position = some e := by
  obtain ⟨hindent, hsource, harrow, hlabel, hdestination⟩ := he
  obtain ⟨w₁, w₂, w₃, w₄, hw₁, hw₂, hw₃, hw₄, hnone, rfl⟩ := h
  have hshaft (r : Text) : ∀ c ∈ (e.arrow ++ r).head?, isWordChar c = false := by
    obtain ⟨c, r, hcr, hc⟩ := harrow.head r
    rw [hcr]
    rcases isShaft_iff.1 hc with rfl | rfl | rfl <;> simp <;> decide
  -- The label with what follows, as the reader finds it behind the arrow.
  have hbar : Flush (renderLabel e.label ++ (w₃ ++ (e.destination ++ w₄))) ∧
      label? (renderLabel e.label ++ (w₃ ++ (e.destination ++ w₄))) =
        some (e.label, e.destination ++ w₄) := by
    cases hl : e.label with
    | none =>
      rw [hnone hl]
      refine ⟨hdestination.flush w₄, label?_of_head ?_⟩
      obtain ⟨c, d, hd⟩ := List.exists_cons_of_ne_nil hdestination.1
      have hc := hdestination.2 c (by simp [hd])
      simp only [renderLabel, List.nil_append, hd, List.cons_append, List.head?_cons, ne_eq,
        Option.some.injEq]
      rintro rfl
      exact absurd hc (by decide)
    | some l =>
      refine ⟨?_, label?_render (hlabel l hl) hw₃ (hdestination.flush w₄)⟩
      simp only [Flush, renderLabel, List.cons_append, List.head?_cons, Option.mem_def,
        Option.some.injEq, forall_eq']
      decide
  have hend : (guard (w₄.all isBlank = true) : Option Unit) = some () :=
    (Option.guard_eq_some' ()).2 (List.all_eq_true.2 hw₄)
  have hstop : ∀ c ∈ w₄.head?, isWordChar c = false := by
    simpa using head_of_blank (s := []) hw₄ (by simp)
  have hline : ∀ c ∈ (e.source ++ (w₁ ++ (e.arrow ++ (w₂ ++ (renderLabel e.label ++
      (w₃ ++ (e.destination ++ w₄)))))) : Text).head?, isBlank c = false := hsource.flush _
  simp only [parse, takeWhile_append_stop hindent hline, dropWhile_append_stop hindent hline,
    run?_word hsource (head_of_blank hw₁ (hshaft _)), trimStart_append hw₁ (harrow.flush _),
    arrow?_eq_some_iff.2 ⟨harrow, rfl⟩, trimStart_append hw₂ hbar.1, hbar.2,
    run?_word hdestination hstop, hend, Option.bind_eq_bind, Option.bind_some]
  rfl

/-- A line states an edge exactly when it spells the well-formed parts of the edge. -/
theorem parse_eq_some_iff {line : Text} {p : Int} {e : Edge} :
    parse line p = some e ↔ e.position = p ∧ e.WellFormed ∧ e.Spells line := by
  constructor
  · exact spells_of_parse
  · rintro ⟨rfl, he, h⟩
    exact parse_of_spells he h

/-- An edge that is written is read back. -/
theorem parse_render {e : Edge} (he : e.WellFormed) : parse e.render e.position = some e :=
  parse_of_spells he e.spells_render

end Edge

end WikiTidy.Diagram
