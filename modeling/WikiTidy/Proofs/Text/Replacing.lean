import WikiTidy.Proofs.Text.Marks
import WikiTidy.Proofs.Text.Split

/-!
# What a replacement leaves

When every occurrence of a pattern is replaced, a character that is never written was passed by: the
search of the old text can be cut there, and the two parts of the new text are the replacements of
what stood before it and behind it (`exists_scan_of_replace_eq_append_cons`).

At the head of a text even a word can be followed through. If all that is written starts with the
character `d`, a word without `d` at the head of the new text stood there before
(`exists_of_replace_eq_append`). If all that is found starts with `d`, it stays there
(`replace_append_of_notMem`).

Two parts of a text are searched one by one when no token runs from the first into the second
(`replace_append_of_cut`, `replace_append_of_apart`).

A reader that stops at a character (`StopsAt`) does not see what follows it, so a search can be cut
there, whatever stands in front (`exists_replace_append_cons`). A pattern of lines
(`Pattern.IsOfLines`) is found at the start of a line only, so the rest of the line stays.
-/

namespace WikiTidy.Text

variable {α : Type} {p : Pattern α} {write : α → Text} {s t u w r : Text} {c d : Char}

/-- All occurrences start with the character `d`. -/
def Pattern.StartsWith (p : Pattern α) (d : Char) : Prop :=
  ∀ s a r, p true s = some (a, r) → s.head? = some d

theorem Pattern.StartsWith.eq_none (hp : p.StartsWith d) (h : c ≠ d) : p true (c :: s) = none := by
  rw [Option.eq_none_iff_forall_ne_some]
  rintro ⟨a, r⟩ hread
  exact h (by simpa using hp _ _ _ hread)

@[simp] theorem Piece.source_plain (c : Char) : (Piece.plain c : Piece α).source = [c] := rfl

theorem exists_of_render_eq_append_cons {pieces : List (Piece α)} (hc : ∀ a, c ∉ write a)
    (h : pieces.flatMap (Piece.render write) = t ++ c :: u) :
    ∃ front back, pieces = front ++ .plain c :: back ∧ front.flatMap (Piece.render write) = t ∧
      back.flatMap (Piece.render write) = u := by
  induction pieces generalizing t with
  | nil => simp at h
  | cons piece pieces ih =>
    rw [List.flatMap_cons] at h
    rcases List.append_eq_append_iff.1 h with ⟨t', rfl, hrest⟩ | ⟨v, hpiece, hrest⟩
    · obtain ⟨front, back, rfl, rfl, hback⟩ := ih hrest
      exact ⟨piece :: front, back, rfl, rfl, hback⟩
    · cases v with
      | nil =>
        obtain ⟨front, back, rfl, hfront, hback⟩ := ih (t := []) hrest.symm
        exact ⟨piece :: front, back, rfl, by simp [hfront, hpiece], hback⟩
      | cons e v =>
        obtain ⟨rfl, hu⟩ := List.cons.inj hrest
        cases piece with
        | hit a w =>
          have hwrite : write a = t ++ c :: v := hpiece
          exact absurd (by simp [hwrite]) (hc a)
        | plain e =>
          obtain ⟨rfl, hcons⟩ : t = [] ∧ [e] = c :: v := by
            cases t with
            | nil => exact ⟨rfl, hpiece⟩
            | cons f t => simp [Piece.render] at hpiece
          obtain ⟨rfl, rfl⟩ := List.cons.inj hcons
          exact ⟨[], pieces, rfl, rfl, hu.symm⟩

theorem mem_flatMap_render_iff {pieces : List (Piece α)} (hc : ∀ a, c ∉ write a) :
    c ∈ pieces.flatMap (Piece.render write) ↔ .plain c ∈ pieces := by
  rw [List.mem_flatMap]
  constructor
  · rintro ⟨piece, hmem, hpiece⟩
    cases piece with
    | plain e =>
      rw [List.mem_singleton.1 hpiece]
      exact hmem
    | hit a w => exact absurd hpiece (hc a)
  · exact fun h => ⟨.plain c, h, List.mem_singleton_self c⟩

namespace Pattern.IsLocal

/-! ## The head of a text -/

theorem replace_append_of_none (hp : p.IsLocal)
    (h : ∀ v, v ≠ [] → v <:+ w → p true (v ++ s) = none) :
    replace p write (w ++ s) = w ++ replace p write s := by
  induction w with
  | nil => rfl
  | cons c w ih =>
    have hhere := h (c :: w) (by simp) (List.suffix_refl _)
    have hbehind := ih fun v hv hsuffix => h v hv (hsuffix.trans (List.suffix_cons c w))
    rw [List.cons_append] at hhere
    rw [List.cons_append, hp.replace_cons hhere, hbehind]
    rfl

theorem replace_append_of_notMem (hp : p.IsLocal) (hstart : p.StartsWith d) (hd : d ∉ w)
    (s : Text) : replace p write (w ++ s) = w ++ replace p write s := by
  refine hp.replace_append_of_none fun v hv hsuffix => ?_
  obtain ⟨c, v, rfl⟩ := List.exists_cons_of_ne_nil hv
  exact hstart.eq_none (ne_of_mem_of_not_mem (hsuffix.subset List.mem_cons_self) hd)

theorem hits_append_of_notMem (hp : p.IsLocal) (hstart : p.StartsWith d) (hd : d ∉ w) (s : Text) :
    hits p (w ++ s) = hits p s := by
  induction w with
  | nil => rfl
  | cons c w ih =>
    rw [List.mem_cons, not_or] at hd
    have hnone : p true (c :: (w ++ s)) = none := hstart.eq_none (Ne.symm hd.1)
    rw [List.cons_append, hp.hits_cons hnone, ih hd.2]

theorem exists_of_replace_eq_append (hp : p.IsLocal) (hwrite : ∀ a, (write a).head? = some d)
    (hd : d ∉ w) (h : replace p write s = w ++ t) : ∃ r, s = w ++ r ∧ replace p write r = t := by
  induction w generalizing s with
  | nil => exact ⟨s, rfl, h⟩
  | cons c w ih =>
    rw [List.mem_cons, not_or] at hd
    induction s using hp.induct with
    | nil => cases h
    | plain e s hplain _ =>
      rw [hp.replace_cons hplain, List.cons_append, List.cons.injEq] at h
      obtain ⟨rfl, hrest⟩ := h
      obtain ⟨r, rfl, hr⟩ := ih hd.2 hrest
      exact ⟨r, rfl, hr⟩
    | hit a v r hv hread _ =>
      rw [hp.replace_append hv hread] at h
      have hhead : (write a ++ replace p write r).head? = some d := by
        rw [List.head?_append, hwrite]
        rfl
      rw [h] at hhead
      exact absurd (Option.some.inj hhead).symm hd.1

/-- **A word at the head of a text** is neither made nor broken when all that is found and all that
is written starts with a character that is not in it. -/
theorem prefix_replace_iff (hp : p.IsLocal) (hstart : p.StartsWith d)
    (hwrite : ∀ a, (write a).head? = some d) (hd : d ∉ w) : w <+: replace p write s ↔ w <+: s := by
  constructor
  · rintro ⟨t, ht⟩
    obtain ⟨r, rfl, -⟩ := hp.exists_of_replace_eq_append hwrite hd ht.symm
    exact List.prefix_append w r
  · rintro ⟨r, rfl⟩
    rw [hp.replace_append_of_notMem hstart hd]
    exact List.prefix_append w _

/-! ## Characters that are not written -/

/-- **A character that is never written was passed by.** The search can be cut there. -/
theorem exists_scan_of_replace_eq_append_cons (hp : p.IsLocal) (hc : ∀ a, c ∉ write a)
    (h : replace p write s = t ++ c :: u) :
    ∃ front r, scan p s = front ++ .plain c :: scan p r ∧ p true (c :: r) = none ∧
      s = front.flatMap Piece.source ++ c :: r ∧ front.flatMap (Piece.render write) = t ∧
      replace p write r = u := by
  obtain ⟨front, back, hscan, ht, hu⟩ := exists_of_render_eq_append_cons hc h
  obtain ⟨r, hs, hr⟩ := hp.exists_of_scan_eq_append hscan
  obtain ⟨r, rfl, hnone, rfl⟩ := hp.cons_of_scan_eq_plain hr
  exact ⟨front, r, hscan, hnone, hs, ht, hu⟩

/-- A word that shares no character with what is written was there before. -/
theorem infix_of_infix_replace (hp : p.IsLocal) (hwrite : ∀ a, (write a).head? = some d)
    (hd : d ∉ c :: w) (hc : ∀ a, c ∉ write a) (h : c :: w <:+: replace p write s) :
    c :: w <:+: s := by
  obtain ⟨a, b, hab⟩ := h
  rw [List.append_assoc] at hab
  obtain ⟨front, r, -, -, rfl, -, hr⟩ := hp.exists_scan_of_replace_eq_append_cons hc hab.symm
  obtain ⟨r, rfl, -⟩ := hp.exists_of_replace_eq_append hwrite (List.not_mem_of_not_mem_cons hd) hr
  exact ⟨front.flatMap Piece.source, r, by simp⟩

theorem head?_of_hit_mem (hp : p.IsLocal) (hstart : p.StartsWith d) {a : α}
    (h : .hit a w ∈ scan p s) : w.head? = some d := by
  obtain ⟨front, back, hscan⟩ := List.append_of_mem h
  obtain ⟨r, -, hr⟩ := hp.exists_of_scan_eq_append hscan
  obtain ⟨t, hw, -, hread, -⟩ := hp.append_of_scan_eq_hit hr
  obtain ⟨e, w, rfl⟩ := List.exists_cons_of_ne_nil hw
  exact hstart (e :: (w ++ t)) _ _ hread

theorem mem_of_mem_replace (hp : p.IsLocal) (hc : ∀ a, c ∉ write a) (h : c ∈ replace p write s) :
    c ∈ s := by
  obtain ⟨a, b, hab⟩ := List.append_of_mem h
  obtain ⟨front, r, -, -, rfl, -⟩ := hp.exists_scan_of_replace_eq_append_cons hc hab
  simp

end Pattern.IsLocal

/-! ## Texts that stand apart -/

/-- **Two parts of a text are searched one by one** when no token runs over the cut. -/
theorem Pattern.Prints.replace_append_of_cut {print : α → Text} {valid : α → Prop}
    (hp : p.Prints print valid)
    (h : ∀ a v x, valid a → print a = v ++ x → v ≠ [] → x ≠ [] → v <:+ s → ¬x <+: t) :
    replace p write (s ++ t) = replace p write s ++ replace p write t := by
  induction s using hp.induct with
  | nil => rfl
  | plain c s hplain ih =>
    have hnone : p true (c :: (s ++ t)) = none := by
      rw [Option.eq_none_iff_forall_ne_some]
      rintro ⟨a, r⟩ hread
      obtain ⟨ha, hsource⟩ := (hp.reads _ _ _ _).1 hread
      rw [← List.cons_append] at hsource
      rcases List.append_eq_append_iff.1 hsource with ⟨x, hprint, ht⟩ | ⟨y, hcons, -⟩
      · by_cases hx : x = []
        · have htoken : p true (c :: s) = some (a, []) :=
            (hp.reads _ _ _ _).2 ⟨ha, by simp [hprint, hx]⟩
          rw [hplain] at htoken
          cases htoken
        · exact h a (c :: s) x ha hprint (by simp) hx (List.suffix_refl _) ⟨r, ht.symm⟩
      · have htoken : p true (c :: s) = some (a, y) := (hp.reads _ _ _ _).2 ⟨ha, hcons⟩
        rw [hplain] at htoken
        cases htoken
    have hbehind := ih fun a v x ha hprint hv hx hsuffix =>
      h a v x ha hprint hv hx (hsuffix.trans (List.suffix_cons c s))
    rw [List.cons_append, hp.replace_cons hnone, hbehind, hp.replace_cons hplain]
    rfl
  | token a r ha ih =>
    have hbehind := ih fun b v x hb hprint hv hx hsuffix =>
      h b v x hb hprint hv hx (hsuffix.trans (List.suffix_append _ r))
    rw [List.append_assoc, hp.replace_append ha, hbehind, hp.replace_append ha, List.append_assoc]

/-- **A search starts anew** at a text into which no token runs from before. -/
theorem Pattern.Prints.replace_append_of_apart {print : α → Text} {valid : α → Prop}
    (hp : p.Prints print valid)
    (h : ∀ a v x, valid a → print a = v ++ x → v ≠ [] → x ≠ [] → ¬x <+: t) (s : Text) :
    replace p write (s ++ t) = replace p write s ++ replace p write t :=
  hp.replace_append_of_cut fun a v x ha hprint hv hx _ => h a v x ha hprint hv hx

/-! ## Characters that no occurrence goes over -/

/-- The reader comes up to the character `c` at most: whether it reads something, and what, does not
depend on what stands behind it. -/
def StopsAt (c : Char) (read : Text → Option (α × Text)) : Prop :=
  ∀ x, (∀ t, read (x ++ c :: t) = none) ∨ ∃ a y, ∀ t, read (x ++ c :: t) = some (a, y ++ c :: t)

theorem after?_stop (hw : c ∉ w) (x : Text) :
    (∀ t, after? w (x ++ c :: t) = none) ∨ ∃ y, ∀ t, after? w (x ++ c :: t) = some (y ++ c :: t) := by
  by_cases hx : w <+: x
  · obtain ⟨y, rfl⟩ := hx
    exact Or.inr ⟨y, fun t => by rw [List.append_assoc, after?_append]⟩
  · refine Or.inl fun t => Option.eq_none_iff_forall_ne_some.2 fun r hr => ?_
    rcases List.append_eq_append_iff.1 (after?_eq_some_iff.1 hr) with ⟨y, rfl, hy⟩ | ⟨y, rfl, -⟩
    · cases y with
      | nil => exact hx (by simp)
      | cons d y =>
        rw [(List.cons.inj hy).1] at hw
        simp at hw
    · exact hx (List.prefix_append w y)

theorem run?_stopsAt {q : Char → Bool} (hq : q c = false) : StopsAt c (run? q) := by
  intro x
  simp only [run?, takeWhile_append_cons hq, dropWhile_append_cons hq]
  cases x.takeWhile q with
  | nil => exact Or.inl fun t => rfl
  | cons d run => exact Or.inr ⟨d :: run, x.dropWhile q, fun t => rfl⟩

/-- **A search can be cut at a character that no occurrence goes over.** -/
theorem Pattern.IsLocal.exists_replace_append_cons (hp : p.IsLocal) (hstop : StopsAt c (p true))
    (x : Text) : ∃ y, ∀ t, replace p write (x ++ c :: t) = y ++ c :: replace p write t := by
  -- An occurrence takes more than one character, so the induction is on the length.
  induction hn : x.length using Nat.strongRecOn generalizing x with
  | ind n ih =>
    rcases hstop x with hnone | ⟨a, r, hread⟩
    · cases x with
      | nil => exact ⟨[], fun t => hp.replace_cons (hnone t)⟩
      | cons d x =>
        obtain ⟨y, hy⟩ := ih x.length (by simp [← hn]) x rfl
        refine ⟨d :: y, fun t => ?_⟩
        have hhere := hnone t
        rw [List.cons_append] at hhere ⊢
        rw [hp.replace_cons hhere, hy t]
        rfl
    · obtain ⟨w, hw, hsource⟩ := hp.takes _ _ _ (hread [])
      obtain rfl : x = w ++ r := by
        rw [← List.append_assoc] at hsource
        exact List.append_cancel_right hsource
      have hlength := List.length_pos_iff.2 hw
      obtain ⟨y, hy⟩ := ih r.length (by rw [← hn, List.length_append]; omega) r rfl
      refine ⟨write a ++ y, fun t => ?_⟩
      have hhere := hread t
      rw [List.append_assoc] at hhere ⊢
      rw [hp.replace_append hw hhere, hy, List.append_assoc]

/-! ## Patterns of lines -/

theorem scanFrom_append_cons (p : Pattern α) (b : Bool) (w : Text) (c : Char) (r : Text) :
    scanFrom p b (w.length + 1) (w ++ c :: r) = scanFrom p (isLineEnd c) 0 r := by
  induction w generalizing b with
  | nil => rfl
  | cons d w ih => exact ih (isLineEnd d)

/-- **Behind an occurrence a search starts anew**, at the start of a line if the occurrence ends one. -/
theorem render_scanFrom_append_cons {a : α} {b : Bool} (h : p b (w ++ c :: r) = some (a, r)) :
    (scanFrom p b 0 (w ++ c :: r)).flatMap (Piece.render write) =
      write a ++ (scanFrom p (isLineEnd c) 0 r).flatMap (Piece.render write) := by
  cases w with
  | nil =>
    obtain ⟨source, hscan⟩ := exists_scanFrom_eq_hit (w := []) h
    rw [List.nil_append] at hscan
    rw [List.nil_append, hscan]
    rfl
  | cons d w =>
    have hread : p b (d :: ((w ++ [c]) ++ r)) = some (a, r) := by simpa using h
    obtain ⟨source, hscan⟩ := exists_scanFrom_eq_hit hread
    have hline : (w ++ [c]).length = w.length + 1 := by simp
    rw [hline, List.append_assoc, List.singleton_append, scanFrom_append_cons] at hscan
    rw [List.cons_append, hscan]
    rfl

theorem render_scanFrom_cons {b : Bool} (h : p b (c :: s) = none) :
    (scanFrom p b 0 (c :: s)).flatMap (Piece.render write) =
      c :: (scanFrom p (isLineEnd c) 0 s).flatMap (Piece.render write) := by
  rw [scanFrom, h]
  rfl

/-- Occurrences are found at the start of a line only. -/
def Pattern.IsOfLines (p : Pattern α) : Prop := ∀ s, p false s = none

namespace Pattern.IsOfLines

theorem render_scanFrom (hp : p.IsOfLines) (hs : ∀ c ∈ s, isLineEnd c = false) :
    (scanFrom p false 0 s).flatMap (Piece.render write) = s := by
  induction s with
  | nil => rfl
  | cons c s ih =>
    obtain ⟨hc, hs⟩ := List.forall_mem_cons.1 hs
    rw [render_scanFrom_cons (hp (c :: s)), hc, ih hs]

theorem replace_of_none (hp : p.IsOfLines) (h : p true s = none)
    (hs : ∀ c ∈ s, isLineEnd c = false) : replace p write s = s := by
  cases s with
  | nil => rfl
  | cons c s =>
    obtain ⟨hc, hs⟩ := List.forall_mem_cons.1 hs
    rw [replace, scan, render_scanFrom_cons h, hc, hp.render_scanFrom hs]

end Pattern.IsOfLines

end WikiTidy.Text
