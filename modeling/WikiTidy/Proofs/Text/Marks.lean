import Mathlib.Data.Bool.Basic
import Mathlib.Data.List.Basic
import WikiTidy.Proofs.Text.Tokens

/-!
# Counting marks in a text

A *mark* says which places of a text are counted: characters of some kinds, and slashes between
certain neighbours. Every character but the slash is counted for itself, so a count splits at any of
them (`tally_append_cons`).

**Falling counts** (`Falls`). One text can stand for another if that takes marks away whatever is
around. The relation carries over from what a search finds to the whole text: when every occurrence
is replaced by a text that falls by `n`, the count falls by `n` for each (`falls_replace`). So a
replacement that keeps the count of such a mark has found nothing.
-/

namespace WikiTidy.Text

/-! ## What a search finds -/

variable {α : Type} {p : Pattern α} {write : α → Text} {s r : Text}

/-- The number of occurrences that a search finds. -/
def hits (p : Pattern α) (s : Text) : Nat := (scan p s).countP fun piece => piece.found?.isSome

/-- Behind an occurrence a search goes on with the text that was read to be left. -/
theorem exists_scanFrom_eq_hit {b : Bool} {c : Char} {w : Text} {a : α}
    (h : p b (c :: (w ++ r)) = some (a, r)) :
    ∃ source, scanFrom p b 0 (c :: (w ++ r)) =
      .hit a source :: scanFrom p (isLineEnd c) w.length (w ++ r) := by
  have hwidth : (c :: (w ++ r)).length - r.length - 1 = w.length := by
    simp only [List.length_cons, List.length_append]
    omega
  simp only [scanFrom, h]
  exact ⟨_, by rw [hwidth]⟩

/-- **A search that finds nothing changes nothing.** -/
theorem replace_of_hits_eq_zero (write : α → Text) (h : hits p s = 0) : replace p write s = s := by
  suffices hfrom : ∀ b, ((scanFrom p b 0 s).countP fun piece => piece.found?.isSome) = 0 →
      (scanFrom p b 0 s).flatMap (Piece.render write) = s from hfrom true h
  clear h
  induction s with
  | nil => exact fun b _ => rfl
  | cons c s ih =>
    intro b h
    simp only [scanFrom] at h ⊢
    cases hp : p b (c :: s) with
    | none =>
      simp only [hp, List.countP_cons, Piece.found?, Option.isSome_none, Bool.false_eq_true,
        if_false, Nat.add_zero] at h
      simp [Piece.render, ih _ h]
    | some found =>
      obtain ⟨a, rest⟩ := found
      simp [hp, Piece.found?] at h

theorem Pattern.IsLocal.hits_cons (hp : p.IsLocal) {c : Char} (h : p true (c :: s) = none) :
    hits p (c :: s) = hits p s := by
  simp [hits, hp.scan_cons_of_none h, Piece.found?]

theorem hits_eq_zero_iff (hp : p.IsLocal) :
    hits p s = 0 ↔ ∀ r, r <:+ s → p true r = none := by
  induction s with
  | nil =>
    have hnil : p true [] = none := by
      cases h : p true [] with
      | none => rfl
      | some found =>
        obtain ⟨w, hw, heq⟩ := hp.takes [] found.1 found.2 h
        exact absurd (List.append_eq_nil_iff.1 heq.symm).1 hw
    simp [hits, hnil]
  | cons c s ih =>
    cases h : p true (c :: s) with
    | none =>
      rw [hp.hits_cons h, ih]
      constructor
      · intro hall r hr
        rcases List.suffix_cons_iff.1 hr with rfl | hr
        · exact h
        · exact hall r hr
      · exact fun hall r hr => hall r (hr.trans (List.suffix_cons c s))
    | some found =>
      obtain ⟨w, hw, heq⟩ := hp.takes _ found.1 found.2 h
      have hscan : hits p (c :: s) ≠ 0 := by
        rw [heq] at h ⊢
        simp [hits, hp.scan_append_of_some hw h, Piece.found?]
      constructor
      · exact fun hzero => absurd hzero hscan
      · intro hall
        rw [hall _ (List.suffix_refl _)] at h
        cases h

/-- Where something is found, it is replaced. -/
theorem exists_of_hits_ne_zero (write : α → Text) (h : hits p s ≠ 0) :
    ∃ a w pre post, Piece.hit a w ∈ scan p s ∧ replace p write s = pre ++ write a ++ post := by
  obtain ⟨piece, hmem, hfound⟩ := List.countP_pos_iff.1 (Nat.pos_of_ne_zero h)
  cases piece with
  | plain c => cases hfound
  | hit a w =>
    obtain ⟨before, after, hscan⟩ := List.append_of_mem hmem
    refine ⟨a, w, before.flatMap (Piece.render write), after.flatMap (Piece.render write), hmem, ?_⟩
    rw [replace, hscan]
    simp [Piece.render]

/-! ## Marks -/

/-- What is counted in a text: characters of some kinds, and slashes between certain neighbours. -/
structure Mark where
  char : Char → Bool
  slash : Char → Char → Bool

namespace Mark

variable {m : Mark} {a b : Text} {c x y x' y' : Char} {n k : Nat}

/-- The character `c` counts between `x` and `y`. -/
def holds (m : Mark) (x c y : Char) : Bool := if c = '/' then m.slash x y else m.char c

/-- How often the mark stands in a text between two characters. -/
def tally (m : Mark) : Char → Text → Char → Nat
  | _, [], _ => 0
  | x, c :: s, y => (m.holds x c (s.headD y)).toNat + m.tally c s y

/-- How often the mark stands in a text. The ends of the text count as line feeds. -/
def count (m : Mark) (s : Text) : Nat := m.tally '\n' s '\n'

theorem tally_append (m : Mark) (x : Char) (a b : Text) (y : Char) :
    m.tally x (a ++ b) y = m.tally x a (b.headD y) + m.tally (a.getLastD x) b y := by
  induction a generalizing x with
  | nil => simp [tally]
  | cons c a ih =>
    have hhead : (a ++ b).headD y = a.headD (b.headD y) := by cases a <;> rfl
    rw [List.cons_append, tally, tally, ih, hhead, List.getLastD_cons, Nat.add_assoc]

theorem tally_cons_of_ne (hc : c ≠ '/') : m.tally x (c :: s) y = (m.char c).toNat + m.tally c s y := by
  rw [tally, holds, if_neg hc]

/-- **A count splits at every character but the slash.** -/
theorem tally_append_cons (m : Mark) (x : Char) (a b : Text) (y : Char) (hc : c ≠ '/') :
    m.tally x (a ++ c :: b) y = m.tally x a c + ((m.char c).toNat + m.tally c b y) := by
  rw [tally_append, tally_cons_of_ne hc]
  rfl

/-- The neighbours of a text matter to slashes at its ends only. -/
theorem tally_of_notMem (h : '/' ∉ s) : m.tally x s y = s.countP m.char := by
  induction s generalizing x with
  | nil => rfl
  | cons c s ih =>
    simp only [List.mem_cons, not_or] at h
    rw [tally_cons_of_ne (Ne.symm h.1), ih h.2, List.countP_cons, Nat.add_comm]
    cases m.char c <;> rfl

/-- Nothing in the text counts, whatever stands around it. -/
structure IsSilent (m : Mark) (s : Text) : Prop where
  slash : '/' ∉ s
  char : ∀ c ∈ s, m.char c = false

theorem IsSilent.append (ha : m.IsSilent a) (hb : m.IsSilent b) : m.IsSilent (a ++ b) where
  slash := by simpa using ⟨ha.slash, hb.slash⟩
  char c hc := (List.mem_append.1 hc).elim (ha.char c) (hb.char c)

theorem IsSilent.tally_eq_zero (hs : m.IsSilent s) (x y : Char) : m.tally x s y = 0 := by
  rw [tally_of_notMem hs.slash, List.countP_eq_zero]
  intro c hc
  simp [hs.char c hc]

theorem toNat_holds_le (h : m.slash x y = true → m.slash x' y' = true) :
    (m.holds x c y).toNat ≤ (m.holds x' c y').toNat := by
  by_cases hc : c = '/'
  · rw [holds, holds, if_pos hc, if_pos hc]
    exact Bool.toNat_le_toNat h
  · simp [holds, hc]

theorem tally_mono_left (h : ∀ y, m.slash x y = true → m.slash x' y = true) :
    m.tally x s y ≤ m.tally x' s y := by
  cases s with
  | nil => exact Nat.le_refl 0
  | cons c s => exact Nat.add_le_add_right (toNat_holds_le (h _)) _

theorem tally_congr_left (h : s.head? ≠ some '/') : m.tally x s y = m.tally x' s y := by
  cases s with
  | nil => rfl
  | cons c s =>
    have hc : c ≠ '/' := fun hc => h (by rw [hc]; rfl)
    rw [tally_cons_of_ne hc, tally_cons_of_ne hc]

theorem tally_congr_right (h : s.getLast? ≠ some '/') : m.tally x s y = m.tally x s y' := by
  rcases List.eq_nil_or_concat' s with rfl | ⟨t, c, rfl⟩
  · rfl
  · have hc : c ≠ '/' := fun hc => h (by rw [List.getLast?_concat, hc])
    rw [tally_append_cons m x t [] y hc, tally_append_cons m x t [] y' hc]
    rfl

theorem tally_mono_right (h : ∀ x, m.slash x y = true → m.slash x y' = true) :
    m.tally x s y ≤ m.tally x s y' := by
  induction s generalizing x with
  | nil => exact Nat.le_refl 0
  | cons c s ih =>
    refine Nat.add_le_add ?_ ih
    cases s with
    | nil => exact toNat_holds_le (h _)
    | cons d s => exact Nat.le_refl _

/-- What counts in a text that stands between two others. -/
theorem count_between (m : Mark) (pre : Text) (hs : s ≠ []) (post : Text) :
    m.count (pre ++ s ++ post) =
      m.tally '\n' pre (s.headD '\n') + m.tally (pre.getLastD '\n') s (post.headD '\n') +
        m.tally (s.getLastD '\n') post '\n' := by
  obtain ⟨c, t, rfl⟩ := List.exists_cons_of_ne_nil hs
  have hlast : (pre ++ c :: t).getLastD '\n' = (c :: t).getLastD '\n' := by
    rw [List.getLastD_eq_getLast?, List.getLastD_eq_getLast?, List.getLast?_append,
      List.getLast?_eq_some_getLast hs, Option.some_or]
  rw [count, tally_append, tally_append, hlast]
  rfl

/-! ## Falling counts -/

/-- To put `b` where `a` stands takes at least `n` marks away, whatever is around. -/
def Falls (m : Mark) (n : Nat) (b a : Text) : Prop :=
  ∀ pre post, m.count (pre ++ b ++ post) + n ≤ m.count (pre ++ a ++ post)

theorem Falls.count_le (h : m.Falls n b a) : m.count b + n ≤ m.count a := by
  simpa using h [] []

theorem Falls.within (h : m.Falls n b a) (before after : Text) :
    m.Falls n (before ++ b ++ after) (before ++ a ++ after) := by
  intro pre post
  have hfalls := h (pre ++ before) (after ++ post)
  simpa only [List.append_assoc] using hfalls

theorem Falls.trans {c : Text} (h : m.Falls n b a) (h' : m.Falls k c b) : m.Falls (k + n) c a := by
  intro pre post
  have hab := h pre post
  have hbc := h' pre post
  omega

@[simp] theorem count_nil (m : Mark) : m.count [] = 0 := rfl

/-- Two texts can be compared by themselves if slashes next to them count no more than before. -/
theorem falls_of_ends (hb : b ≠ []) (ha : a ≠ []) (h : ∀ x y, m.tally x b y + n ≤ m.tally x a y)
    (hhead : ∀ x, m.slash x (b.headD '\n') = true → m.slash x (a.headD '\n') = true)
    (hlast : ∀ y, m.slash (b.getLastD '\n') y = true → m.slash (a.getLastD '\n') y = true) :
    m.Falls n b a := by
  intro pre post
  rw [count_between m pre hb, count_between m pre ha]
  have hpre : m.tally '\n' pre (b.headD '\n') ≤ m.tally '\n' pre (a.headD '\n') :=
    tally_mono_right hhead
  have hpost : m.tally (b.getLastD '\n') post '\n' ≤ m.tally (a.getLastD '\n') post '\n' :=
    tally_mono_left hlast
  have hself := h (pre.getLastD '\n') (post.headD '\n')
  omega

/-! ## Counting characters alone -/

/-- Characters of a list, no slash among them. -/
def ofChars (cs : List Char) : Mark := ⟨fun c => cs.contains c, fun _ _ => false⟩

theorem tally_ofChars {cs : List Char} (hcs : '/' ∉ cs) (x : Char) (s : Text) (y : Char) :
    (ofChars cs).tally x s y = s.countP fun c => cs.contains c := by
  induction s generalizing x with
  | nil => rfl
  | cons c s ih =>
    rw [tally, ih, List.countP_cons, Nat.add_comm]
    by_cases hc : c = '/'
    · subst hc
      simp [holds, ofChars, hcs]
    · simp only [holds, if_neg hc, ofChars]
      cases cs.contains c <;> rfl

theorem falls_ofChars {cs : List Char} (hcs : '/' ∉ cs)
    (h : (b.countP fun c => cs.contains c) + n ≤ a.countP fun c => cs.contains c) :
    (ofChars cs).Falls n b a := by
  intro pre post
  simp only [count, tally_ofChars hcs, List.countP_append]
  omega

/-! ## Counts after a search -/

/-- **Replacing what a search finds** takes away what is taken away at each occurrence. -/
theorem falls_replace
    (h : ∀ b s a r, p b s = some (a, r) → ∃ w, w ≠ [] ∧ s = w ++ r ∧ m.Falls n (write a) w)
    (s : Text) : m.Falls (n * hits p s) (replace p write s) s := by
  suffices hfrom : ∀ b k pre post,
      m.count (pre ++ (scanFrom p b k s).flatMap (Piece.render write) ++ post) +
          n * (scanFrom p b k s).countP (fun piece => piece.found?.isSome) ≤
        m.count (pre ++ s.drop k ++ post) from fun pre post => hfrom true 0 pre post
  induction s with
  | nil => simp [scanFrom]
  | cons c s ih =>
    intro b k pre post
    cases k with
    | succ k => exact ih _ k pre post
    | zero =>
      cases hp : p b (c :: s) with
      | none =>
        have hrest := ih (isLineEnd c) 0 (pre ++ [c]) post
        simpa [scanFrom, hp, Piece.render, Piece.found?] using hrest
      | some found =>
        obtain ⟨a, rest⟩ := found
        obtain ⟨w, hw, hsource, hfalls⟩ := h b _ a rest hp
        obtain ⟨d, w, rfl⟩ := List.exists_cons_of_ne_nil hw
        obtain ⟨rfl, hs⟩ := List.cons.inj hsource
        obtain rfl : s = w ++ rest := hs
        obtain ⟨source, hscan⟩ := exists_scanFrom_eq_hit hp
        -- what is replaced here goes to the part in front, the rest follows by induction
        have hrest := ih (isLineEnd c) w.length (pre ++ write a) post
        have hhere := hfalls pre (rest ++ post)
        rw [List.drop_left] at hrest
        rw [hscan, List.countP_cons_of_pos (by rfl), Nat.mul_add, Nat.mul_one]
        simp only [List.flatMap_cons, Piece.render, List.drop_zero, List.append_assoc,
          List.cons_append] at hrest hhere ⊢
        omega

end Mark

end WikiTidy.Text
