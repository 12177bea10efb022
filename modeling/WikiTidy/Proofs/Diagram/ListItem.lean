import WikiTidy.Proofs.Diagram.NodeText
import WikiTidy.Proofs.Text.Parts

/-!
# Lists in the text of a node

**Theorem (`hasListItem_iff`).** A text holds a list exactly if an item opens at its start or behind
a break: blanks, a marker, more blanks, and then a character that is neither a blank nor the start
of the next break.

**Theorem (`hasListItem_cleanText`).** A cleaned text holds no list. Replacing links by remarks can
take breaks and items away, but it makes none. A remark holds no `<` and starts with a letter that
no break and no start of an item has. So a break of the new text stood in the old one, and the item
that opens behind it opened there as well (`hasListItem_of_replace`).
-/

namespace WikiTidy.Diagram

open Text

variable {s r w m h t text : Text} {b : Bool} {u : Unit} {c d : Char}

/-! ## Trimmed texts -/

theorem isBlank_getLast?_trimEnd (h : c ∈ (trimEnd s).getLast?) : isBlank c = false := by
  have hstop := List.head?_dropWhile_not isBlank s.reverse
  rw [trimEnd, List.getLast?_reverse] at h
  rw [show (s.reverse.dropWhile isBlank).head? = some c from h] at hstop
  simpa using hstop

/-- Trimming the end stops at a character that is no blank. -/
theorem exists_trimEnd_append_cons (hc : isBlank c = false) (s r : Text) :
    ∃ t, trimEnd (s ++ c :: r) = s ++ c :: t := by
  obtain ⟨g, hg, hs⟩ := exists_eq_append_blank (s ++ c :: r)
  have hend : c ∉ g := hg.notMem hc
  rcases List.append_eq_append_iff.1 hs with ⟨v, hv, hrest⟩ | ⟨v, -, rfl⟩
  · cases v with
    | nil =>
      obtain rfl : c :: r = g := hrest
      exact absurd List.mem_cons_self hend
    | cons e v =>
      obtain ⟨rfl, -⟩ := List.cons.inj hrest
      exact ⟨v, hv⟩
  · exact absurd (by simp) hend

/-! ## Breaks -/

/-- A break, with blanks before its end or its slash. -/
def IsBreak (w : Text) : Prop :=
  ∃ g, Blank g ∧
    (w = '<' :: 'b' :: 'r' :: (g ++ ['>']) ∨ w = '<' :: 'b' :: 'r' :: (g ++ ['/', '>']))

theorem lineBreak_eq_some_iff : lineBreak b s = some (u, r) ↔ ∃ w, IsBreak w ∧ s = w ++ r := by
  simp only [lineBreak, Option.bind_eq_bind, Option.bind_eq_some_iff, after?_eq_some_iff]
  constructor
  · rintro ⟨t, rfl, hend⟩
    obtain ⟨g, hg, ht⟩ := exists_eq_blank_append t
    split at hend
    · next t' htrim =>
      obtain ⟨t'', hclose, he⟩ := Option.bind_eq_some_iff.1 hend
      obtain rfl := after?_eq_some_iff.1 hclose
      obtain rfl : t'' = r := by simpa using he
      rw [htrim] at ht
      exact ⟨_, ⟨g, hg, Or.inr rfl⟩, by simp [ht]⟩
    · next t' htrim =>
      obtain rfl : t' = r := by simpa using hend
      rw [htrim] at ht
      exact ⟨_, ⟨g, hg, Or.inl rfl⟩, by simp [ht]⟩
    · cases hend
  · rintro ⟨w, ⟨g, hg, rfl | rfl⟩, rfl⟩
    · have htrim : trimStart (g ++ '>' :: r) = '>' :: r :=
        trimStart_append hg (by simp [Flush]; decide)
      exact ⟨g ++ '>' :: r, by simp, by rw [htrim]; rfl⟩
    · have htrim : trimStart (g ++ '/' :: '>' :: r) = '/' :: '>' :: r :=
        trimStart_append hg (by simp [Flush]; decide)
      exact ⟨g ++ '/' :: '>' :: r, by simp, by rw [htrim]; rfl⟩

theorem lineBreak_isLocal : lineBreak.IsLocal where
  anywhere _ _ := rfl
  takes s u r h := by
    obtain ⟨w, ⟨g, -, rfl | rfl⟩, rfl⟩ := lineBreak_eq_some_iff.1 h
    · exact ⟨_, List.cons_ne_nil _ _, rfl⟩
    · exact ⟨_, List.cons_ne_nil _ _, rfl⟩

theorem lineBreak_startsWith : lineBreak.StartsWith '<' := by
  intro s u r h
  obtain ⟨w, ⟨g, -, rfl | rfl⟩, rfl⟩ := lineBreak_eq_some_iff.1 h
  · rfl
  · rfl

theorem IsBreak.notMem (hw : IsBreak w) (hblank : isBlank d = false)
    (hd : d ∉ ['<', 'b', 'r', '/', '>']) : d ∉ w := by
  simp only [List.mem_cons, List.not_mem_nil, or_false, not_or] at hd
  obtain ⟨g, hg, rfl | rfl⟩ := hw
  · simp [hd, hg.notMem hblank]
  · simp [hd, hg.notMem hblank]

/-- No break starts within another one. -/
theorem IsBreak.notMem_tail (hw : IsBreak w) : '<' ∉ w.tail := by
  obtain ⟨g, hg, rfl | rfl⟩ := hw
  · simp [hg.notMem (c := '<') (by decide)]
  · simp [hg.notMem (c := '<') (by decide)]

/-! ## Items -/

/-- What an item of a list is told by: a number with a period, or a bullet. -/
def IsMarker (m : Text) : Prop :=
  (∃ ds, ds ≠ [] ∧ (∀ c ∈ ds, isDigit c = true) ∧ m = ds ++ ['.']) ∨ m ∈ [['-'], ['*'], ['+']]

/-- The start of an item: a marker between blanks, some of them behind it. -/
def IsItemStart (h : Text) : Prop :=
  ∃ w m g, Blank w ∧ IsMarker m ∧ g ≠ [] ∧ Blank g ∧ h = w ++ (m ++ g)

theorem IsMarker.flush (hm : IsMarker m) (s : Text) : Flush (m ++ s) := by
  rcases hm with ⟨ds, hne, hds, rfl⟩ | hm
  · obtain ⟨c, ds, rfl⟩ := List.exists_cons_of_ne_nil hne
    have hc : isWordChar c = true := by simp [isWordChar, hds c List.mem_cons_self]
    simpa [Flush] using isBlank_of_isWordChar hc
  · simp only [List.mem_cons, List.not_mem_nil, or_false] at hm
    rcases hm with rfl | rfl | rfl
    · simp [Flush]; decide
    · simp [Flush]; decide
    · simp [Flush]; decide

theorem IsItemStart.notMem (hh : IsItemStart h) (hblank : isBlank d = false)
    (hdigit : isDigit d = false) (hd : d ∉ ['.', '-', '*', '+']) : d ∉ h := by
  obtain ⟨w, m, g, hw, hm, -, hg, rfl⟩ := hh
  simp only [List.mem_cons, List.not_mem_nil, or_false, not_or] at hd
  have hmarker : d ∉ m := by
    rcases hm with ⟨ds, -, hds, rfl⟩ | hm
    · have hnumber : d ∉ ds := by
        intro hmem
        rw [hds d hmem] at hdigit
        cases hdigit
      simp [hnumber, hd]
    · simp only [List.mem_cons, List.not_mem_nil, or_false] at hm
      rcases hm with rfl | rfl | rfl
      · simp [hd]
      · simp [hd]
      · simp [hd]
  simp [hw.notMem hblank, hmarker, hg.notMem hblank]

theorem startsBlank_iff : startsBlank s = true ↔ ∃ c r, isBlank c = true ∧ s = c :: r := by
  cases s with
  | nil => simp [startsBlank]
  | cons c s => simp [startsBlank]

theorem isListItem_iff :
    isListItem s = true ↔ ∃ m c r, IsMarker m ∧ isBlank c = true ∧ s = m ++ c :: r := by
  constructor
  · intro hitem
    cases hrun : run? isDigit s with
    | some found =>
      obtain ⟨ds, t⟩ := found
      obtain ⟨rfl, hne, hds, -⟩ := run?_eq_some hrun
      cases hperiod : after? ['.'] t with
      | none => simp [isListItem, hrun, hperiod] at hitem
      | some t' =>
        have hblank : startsBlank t' = true := by simpa [isListItem, hrun, hperiod] using hitem
        obtain rfl := after?_eq_some_iff.1 hperiod
        obtain ⟨c, r, hc, rfl⟩ := startsBlank_iff.1 hblank
        exact ⟨ds ++ ['.'], c, r, Or.inl ⟨ds, hne, hds, rfl⟩, hc, by simp⟩
    | none =>
      cases s with
      | nil => simp [isListItem, hrun] at hitem
      | cons c t =>
        simp only [isListItem, hrun, Bool.and_eq_true, Bool.or_eq_true, beq_iff_eq] at hitem
        obtain ⟨hbullet, hblank⟩ := hitem
        obtain ⟨e, r, he, rfl⟩ := startsBlank_iff.1 hblank
        refine ⟨[c], e, r, Or.inr ?_, he, rfl⟩
        simpa [or_assoc] using hbullet
  · rintro ⟨m, c, r, hm, hc, rfl⟩
    have hblank : startsBlank (c :: r) = true := startsBlank_iff.2 ⟨c, r, hc, rfl⟩
    rcases hm with ⟨ds, hne, hds, rfl⟩ | hm
    · have hrun : run? isDigit (ds ++ '.' :: c :: r) = some (ds, '.' :: c :: r) :=
        run?_append hne hds (by simp; decide)
      simp [isListItem, hrun, after?, hblank]
    · simp only [List.mem_cons, List.not_mem_nil, or_false] at hm
      rcases hm with rfl | rfl | rfl
      · simpa [isListItem, run?, show isDigit '-' = false by decide] using hblank
      · simpa [isListItem, run?, show isDigit '*' = false by decide] using hblank
      · simpa [isListItem, run?, show isDigit '+' = false by decide] using hblank

/-- A part is an item exactly if it starts like one and goes on. -/
theorem isListItem_trim_iff :
    isListItem (trim s) = true ↔ ∃ h c r, IsItemStart h ∧ isBlank c = false ∧ s = h ++ c :: r := by
  obtain ⟨w, hw, hs⟩ := exists_eq_blank_append s
  rw [isListItem_iff]
  constructor
  · rintro ⟨m, c, r, hm, hc, htrim⟩
    obtain ⟨v, -, hv⟩ := exists_eq_append_blank (trimStart s)
    obtain ⟨g, hg, hr⟩ := exists_eq_blank_append r
    cases hrest : trimStart r with
    | nil =>
      -- A text that ends with its blanks would have been trimmed further.
      rw [hrest, List.append_nil] at hr
      subst hr
      have hlast : (c :: r).getLast? = (trim s).getLast? := by
        rw [htrim, List.getLast?_append_of_ne_nil _ (by simp)]
      obtain ⟨e, he⟩ : ∃ e, (c :: r).getLast? = some e :=
        ⟨_, List.getLast?_eq_some_getLast (by simp)⟩
      have hblank : isBlank e = true := by
        rcases List.mem_cons.1 (List.mem_of_getLast? he) with rfl | hmem
        · exact hc
        · exact hg e hmem
      have hnot : isBlank e = false := isBlank_getLast?_trimEnd (hlast ▸ he)
      rw [hblank] at hnot
      cases hnot
    | cons e t =>
      refine ⟨w ++ (m ++ c :: g), e, t ++ v, ⟨w, m, c :: g, hw, hm, by simp, ?_, rfl⟩, ?_, ?_⟩
      · intro x hx
        rcases List.mem_cons.1 hx with rfl | hx
        · exact hc
        · exact hg x hx
      · exact flush_trimStart r e (by simp [hrest])
      · rw [hs, hv, show trimEnd (trimStart s) = _ from htrim, hr, hrest]
        simp
  · rintro ⟨h, c, r, ⟨w', m, g, hw', hm, hne, hg, rfl⟩, hc, rfl⟩
    obtain ⟨e, g, rfl⟩ := List.exists_cons_of_ne_nil hne
    have hstart : trimStart (w' ++ (m ++ e :: g) ++ c :: r) = m ++ e :: g ++ c :: r := by
      rw [List.append_assoc, List.append_assoc]
      exact trimStart_append hw' (hm.flush _)
    obtain ⟨t, ht⟩ := exists_trimEnd_append_cons hc (m ++ e :: g) r
    refine ⟨m, e, g ++ c :: t, hm, hg e List.mem_cons_self, ?_⟩
    rw [trim, hstart, ht]
    simp

/-! ## Lists -/

/-- An item opens at the start of the text: its start, and behind it something before the next
break. -/
def OpensItem (s : Text) : Prop :=
  ∃ h c r, IsItemStart h ∧ isBlank c = false ∧ s = h ++ c :: r ∧ lineBreak true (c :: r) = none

/-- The first part of a text is an item exactly if an item opens there. -/
theorem isListItem_head_iff {part : Text} {more : List Text}
    (hs : splitBy lineBreak s = part :: more) : isListItem (trim part) = true ↔ OpensItem s := by
  rw [isListItem_trim_iff]
  constructor
  · rintro ⟨h, c, r, hh, hc, rfl⟩
    obtain ⟨t, ht, hnone⟩ := exists_of_splitBy_eq_append lineBreak_isLocal hs
    exact ⟨h, c, t, hh, hc, ht, hnone⟩
  · rintro ⟨h, c, r, hh, hc, rfl, hnone⟩
    have hbreak : '<' ∉ h := hh.notMem (by decide) (by decide) (by decide)
    obtain ⟨t, parts, ht⟩ :=
      exists_splitBy_append_cons lineBreak_isLocal lineBreak_startsWith hbreak hnone
    obtain ⟨rfl, -⟩ := List.cons.inj (hs.symm.trans ht)
    exact ⟨h, c, t, hh, hc, rfl⟩

/-- **A text holds a list** exactly if an item opens at its start or behind a break. -/
theorem hasListItem_iff :
    hasListItem s = true ↔
      OpensItem s ∨ ∃ front w r, IsBreak w ∧ s = front ++ (w ++ r) ∧ OpensItem r := by
  obtain ⟨part, more, hs⟩ := exists_splitBy_eq_cons lineBreak_isLocal s
  rw [hasListItem, List.any_eq_true, hs]
  constructor
  · rintro ⟨item, hmem, hitem⟩
    rcases List.mem_cons.1 hmem with rfl | hmem
    · exact Or.inl ((isListItem_head_iff hs).1 hitem)
    · obtain ⟨front, r, u, t, hread, rfl, parts, ht⟩ :=
        exists_of_mem_tail_splitBy (s := s) lineBreak_isLocal (by rwa [hs])
      obtain ⟨w, hw, rfl⟩ := lineBreak_eq_some_iff.1 hread
      exact Or.inr ⟨front, w, t, hw, rfl, (isListItem_head_iff ht).1 hitem⟩
  · rintro (hopen | ⟨front, w, r, hw, rfl, hopen⟩)
    · exact ⟨part, List.mem_cons_self, (isListItem_head_iff hs).2 hopen⟩
    · obtain ⟨item, parts, hr⟩ := exists_splitBy_eq_cons lineBreak_isLocal r
      have hsolid : ∀ w r u, lineBreak true (w ++ r) = some (u, r) → '<' ∉ w.tail := by
        intro w r u hread
        obtain ⟨w', hw', heq⟩ := lineBreak_eq_some_iff.1 hread
        rw [List.append_cancel_right heq]
        exact hw'.notMem_tail
      have hread : lineBreak true (w ++ r) = some ((), r) := lineBreak_eq_some_iff.2 ⟨w, hw, rfl⟩
      have hmem := mem_tail_splitBy lineBreak_isLocal lineBreak_startsWith hsolid hread front
        (hr ▸ List.mem_cons_self : item ∈ splitBy lineBreak r)
      rw [hs] at hmem
      exact ⟨item, List.mem_cons_of_mem _ hmem, (isListItem_head_iff hr).2 hopen⟩

/-! ## Lists in cleaned texts -/

section Replaced

variable {q : Pattern Unit}

theorem exists_cons_of_replace_eq_cons (hq : q.IsLocal) (hstart : q.StartsWith d)
    (hd : isBlank d = false) (hc : isBlank c = false)
    (h : replace q (fun _ => linkRemark) s = c :: r) : ∃ e t, s = e :: t ∧ isBlank e = false := by
  cases s with
  | nil => cases h
  | cons e t =>
    refine ⟨e, t, rfl, ?_⟩
    by_contra hblank
    rw [Bool.not_eq_false] at hblank
    have hne : e ≠ d := by
      rintro rfl
      rw [hblank] at hd
      cases hd
    rw [hq.replace_cons (hstart.eq_none hne)] at h
    rw [(List.cons.inj h).1, hc] at hblank
    cases hblank

/-- An item that opens after links were replaced was there before. -/
theorem OpensItem.of_replace (hq : q.IsLocal) (hstart : q.StartsWith d) (hd : isBlank d = false)
    (hbreak : d ∉ ['<', 'b', 'r', '/', '>'])
    (hopen : OpensItem (replace q (fun _ => linkRemark) s)) : OpensItem s := by
  obtain ⟨h, c, r, hh, hc, hs, hnone⟩ := hopen
  have hremark : 'U' ∉ h := hh.notMem (by decide) (by decide) (by decide)
  obtain ⟨t, rfl, ht⟩ := hq.exists_of_replace_eq_append (fun _ => head?_linkRemark) hremark hs
  obtain ⟨e, t, rfl, he⟩ := exists_cons_of_replace_eq_cons hq hstart hd hc ht
  refine ⟨h, e, t, hh, he, rfl, ?_⟩
  rw [Option.eq_none_iff_forall_ne_some]
  rintro ⟨u, v⟩ hread
  obtain ⟨w, hw, hwv⟩ := lineBreak_eq_some_iff.1 hread
  rw [hwv, hq.replace_append_of_notMem hstart (hw.notMem hd hbreak)] at ht
  have hread' : lineBreak true (c :: r) = some (u, replace q (fun _ => linkRemark) v) :=
    lineBreak_eq_some_iff.2 ⟨w, hw, ht.symm⟩
  rw [hnone] at hread'
  cases hread'

theorem hasListItem_of_replace (hq : q.IsLocal) (hstart : q.StartsWith d) (hd : isBlank d = false)
    (hbreak : d ∉ ['<', 'b', 'r', '/', '>'])
    (h : hasListItem (replace q (fun _ => linkRemark) s) = true) : hasListItem s = true := by
  rw [hasListItem_iff] at h ⊢
  rcases h with hopen | ⟨front, w, r, hw, hs, hopen⟩
  · exact Or.inl (hopen.of_replace hq hstart hd hbreak)
  · right
    obtain ⟨w, rfl⟩ : ∃ w', w = '<' :: w' := by
      obtain ⟨g, -, rfl | rfl⟩ := hw
      · exact ⟨_, rfl⟩
      · exact ⟨_, rfl⟩
    have hremark : 'U' ∉ '<' :: w := hw.notMem (by decide) (by decide)
    obtain ⟨pieces, t, -, -, rfl, -, ht⟩ :=
      hq.exists_scan_of_replace_eq_append_cons (fun _ => by decide) hs
    obtain ⟨t, rfl, rfl⟩ := hq.exists_of_replace_eq_append (fun _ => head?_linkRemark)
      (List.not_mem_of_not_mem_cons hremark) ht
    exact ⟨_, '<' :: w, t, hw, rfl, hopen.of_replace hq hstart hd hbreak⟩

end Replaced

/-- **A cleaned text holds no list.** -/
theorem hasListItem_cleanText (text : Text) : hasListItem (cleanText text) = false := by
  rw [cleanText]
  split
  · decide +kernel
  · next hlist =>
    rw [← Bool.not_eq_true]
    intro h
    have hbrackets := hasListItem_of_replace bareAddress_isLocal bareAddress_startsWith
      (by decide) (by decide) h
    exact hlist (hasListItem_of_replace bracketLink_isLocal bracketLink_startsWith
      (by decide) (by decide) hbrackets)

end WikiTidy.Diagram
