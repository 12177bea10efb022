import WikiTidy.Text.Scan

/-!
# Searching for tokens

Most patterns look at nothing but the text in front of them (`IsLocal`). For these a search has
three equations, `scan_nil`, `scan_cons_of_none` and `scan_append_of_some`, and an induction that
follows them (`IsLocal.induct`). A search can be taken up anywhere: what is left of it is a search
of what is left of the text (`IsLocal.exists_of_scan_eq_append`).

**Tokens** (`Prints`). Many patterns read back exactly what a printer writes: an occurrence of `a`
is the text `write a`, nothing more and nothing less.

Main result: `scan_replace`. When every token is replaced by a token, and no replacement makes a
token out of a character that was passed by, a search of the new text finds the new tokens exactly
where the old ones were.
-/

namespace WikiTidy.Text

variable {α : Type} {p : Pattern α}

/-! ## Local patterns -/

/-- A pattern that does not ask what stands before its place, and takes a part off the head. -/
structure Pattern.IsLocal (p : Pattern α) : Prop where
  anywhere : ∀ b s, p b s = p true s
  takes : ∀ s a r, p true s = some (a, r) → ∃ w, w ≠ [] ∧ s = w ++ r

namespace Pattern.IsLocal

theorem scanFrom_start (hp : p.IsLocal) (b : Bool) (s : Text) :
    scanFrom p b 0 s = scan p s := by
  cases s with
  | nil => rfl
  | cons c s => simp only [scan, scanFrom, hp.anywhere b]

/-- Characters that are still to be passed over do not matter to what follows. -/
theorem scanFrom_skip (hp : p.IsLocal) (b : Bool) (k : Nat) (s : Text) :
    scanFrom p b k s = scan p (s.drop k) := by
  induction s generalizing b k with
  | nil => simp [scanFrom, scan]
  | cons c s ih =>
    cases k with
    | zero => exact hp.scanFrom_start b (c :: s)
    | succ k => rw [scanFrom, ih, List.drop_succ_cons]

theorem scan_cons_of_none (hp : p.IsLocal) {c : Char} {s : Text} (h : p true (c :: s) = none) :
    scan p (c :: s) = .plain c :: scan p s := by
  simp only [scan, scanFrom, h]
  exact congrArg _ (hp.scanFrom_start _ s)

theorem scan_append_of_some (hp : p.IsLocal) {w r : Text} {a : α} (hw : w ≠ [])
    (h : p true (w ++ r) = some (a, r)) : scan p (w ++ r) = .hit a w :: scan p r := by
  obtain ⟨c, w, rfl⟩ := List.exists_cons_of_ne_nil hw
  have hwidth : (c :: (w ++ r)).length - r.length = w.length + 1 := by
    simp only [List.length_cons, List.length_append]
    omega
  rw [List.cons_append] at h ⊢
  show scanFrom p true 0 (c :: (w ++ r)) = _
  simp only [scanFrom, h, hwidth, Nat.add_sub_cancel]
  rw [hp.scanFrom_skip, List.drop_left, List.take_succ_cons, List.take_left]

theorem consumes (hp : p.IsLocal) : p.Consumes := by
  intro b s a r h
  rw [hp.anywhere] at h
  obtain ⟨w, hw, rfl⟩ := hp.takes s a r h
  have hlen := List.length_pos_iff.2 hw
  rw [List.length_append]
  omega

theorem replace_cons (hp : p.IsLocal) {write : α → Text} {c : Char} {s : Text}
    (h : p true (c :: s) = none) : replace p write (c :: s) = c :: replace p write s := by
  simp [replace, hp.scan_cons_of_none h, Piece.render]

theorem replace_append (hp : p.IsLocal) {write : α → Text} {w r : Text} {a : α} (hw : w ≠ [])
    (h : p true (w ++ r) = some (a, r)) :
    replace p write (w ++ r) = write a ++ replace p write r := by
  simp [replace, hp.scan_append_of_some hw h, Piece.render]

/-- The induction that a search follows. -/
@[elab_as_elim]
theorem induct (hp : p.IsLocal) {motive : Text → Prop} (nil : motive [])
    (plain : ∀ c s, p true (c :: s) = none → motive s → motive (c :: s))
    (hit : ∀ a w r, w ≠ [] → p true (w ++ r) = some (a, r) → motive r → motive (w ++ r))
    (s : Text) : motive s := by
  -- An occurrence takes more than one character, so the induction is on the length.
  induction hn : s.length using Nat.strongRecOn generalizing s with
  | ind n ih =>
    cases s with
    | nil => exact nil
    | cons c s =>
      cases h : p true (c :: s) with
      | none => exact plain c s h (ih s.length (by simp [← hn]) s rfl)
      | some found =>
        obtain ⟨a, r⟩ := found
        obtain ⟨w, hw, heq⟩ := hp.takes _ _ _ h
        rw [heq] at h ⊢
        refine hit a w r hw h (ih r.length ?_ r rfl)
        have hlen := List.length_pos_iff.2 hw
        rw [← hn, heq, List.length_append]
        omega

theorem cons_of_scan_eq_plain (hp : p.IsLocal) {s : Text} {c : Char} {pieces : List (Piece α)}
    (h : scan p s = .plain c :: pieces) :
    ∃ r, s = c :: r ∧ p true (c :: r) = none ∧ scan p r = pieces := by
  induction s using hp.induct with
  | nil => cases h
  | plain d s hd _ =>
    rw [hp.scan_cons_of_none hd, List.cons.injEq, Piece.plain.injEq] at h
    obtain ⟨rfl, rfl⟩ := h
    exact ⟨s, rfl, hd, rfl⟩
  | hit a w r hw hread _ =>
    rw [hp.scan_append_of_some hw hread] at h
    cases (List.cons.inj h).1

theorem append_of_scan_eq_hit (hp : p.IsLocal) {s w : Text} {a : α} {pieces : List (Piece α)}
    (h : scan p s = .hit a w :: pieces) :
    ∃ r, w ≠ [] ∧ s = w ++ r ∧ p true (w ++ r) = some (a, r) ∧ scan p r = pieces := by
  induction s using hp.induct with
  | nil => cases h
  | plain d s hd _ =>
    rw [hp.scan_cons_of_none hd] at h
    cases (List.cons.inj h).1
  | hit b v r hv hread _ =>
    rw [hp.scan_append_of_some hv hread, List.cons.injEq, Piece.hit.injEq] at h
    obtain ⟨⟨rfl, rfl⟩, rfl⟩ := h
    exact ⟨r, hv, rfl, hread, rfl⟩

/-- What is left of a search after some pieces is a search of what is left of the text. -/
theorem exists_of_scan_eq_append (hp : p.IsLocal) {s : Text} {front back : List (Piece α)}
    (h : scan p s = front ++ back) :
    ∃ r, s = front.flatMap Piece.source ++ r ∧ scan p r = back := by
  induction front generalizing s with
  | nil => exact ⟨s, rfl, h⟩
  | cons piece front ih =>
    cases piece with
    | plain c =>
      obtain ⟨r, rfl, -, hr⟩ := hp.cons_of_scan_eq_plain h
      obtain ⟨t, rfl, ht⟩ := ih hr
      exact ⟨t, rfl, ht⟩
    | hit a w =>
      obtain ⟨r, -, rfl, -, hr⟩ := hp.append_of_scan_eq_hit h
      obtain ⟨t, rfl, ht⟩ := ih hr
      exact ⟨t, by simp [Piece.source], ht⟩

end Pattern.IsLocal

@[simp] theorem scan_nil : scan p [] = [] := rfl

/-! ## Tokens -/

/-- A pattern that reads what `write` prints of the values that are `valid`, and nothing else. -/
structure Pattern.Prints (p : Pattern α) (write : α → Text) (valid : α → Prop) : Prop where
  reads : ∀ b s a r, p b s = some (a, r) ↔ valid a ∧ s = write a ++ r
  ne_nil : ∀ a, write a ≠ []

/-- A piece with another token in the place of the one that was found. -/
def Piece.relabel (write : α → Text) (f : α → α) : Piece α → Piece α
  | plain c => plain c
  | hit a _ => hit (f a) (write (f a))

namespace Pattern.Prints

variable {write : α → Text} {valid : α → Prop}

theorem isLocal (hp : p.Prints write valid) : p.IsLocal where
  anywhere b s := by
    refine Option.ext fun found => ?_
    rw [hp.reads, hp.reads]
  takes s a r h := ⟨write a, hp.ne_nil a, ((hp.reads true s a r).1 h).2⟩

theorem consumes (hp : p.Prints write valid) : p.Consumes := hp.isLocal.consumes

theorem scan_cons (hp : p.Prints write valid) {c : Char} {s : Text}
    (h : p true (c :: s) = none) : scan p (c :: s) = .plain c :: scan p s :=
  hp.isLocal.scan_cons_of_none h

theorem scan_append (hp : p.Prints write valid) {a : α} (ha : valid a) (r : Text) :
    scan p (write a ++ r) = .hit a (write a) :: scan p r :=
  hp.isLocal.scan_append_of_some (hp.ne_nil a) ((hp.reads _ _ _ _).2 ⟨ha, rfl⟩)

@[elab_as_elim]
theorem induct (hp : p.Prints write valid) {motive : Text → Prop} (nil : motive [])
    (plain : ∀ c s, p true (c :: s) = none → motive s → motive (c :: s))
    (token : ∀ a r, valid a → motive r → motive (write a ++ r)) (s : Text) : motive s := by
  induction s using hp.isLocal.induct with
  | nil => exact nil
  | plain c s h ih => exact plain c s h ih
  | hit a w r _ h ih =>
    obtain ⟨ha, heq⟩ := (hp.reads _ _ _ _).1 h
    rw [List.append_cancel_right heq]
    exact token a r ha ih

/-- Every token that a search finds is valid, and is the text that it covers. -/
theorem of_hit_mem (hp : p.Prints write valid) {s : Text} {a : α} {w : Text}
    (h : Piece.hit a w ∈ scan p s) : valid a ∧ w = write a := by
  induction s using hp.induct with
  | nil => simp at h
  | plain c s hc ih =>
    rw [hp.scan_cons hc] at h
    exact ih (by simpa using h)
  | token b r hb ih =>
    rw [hp.scan_append hb, List.mem_cons, Piece.hit.injEq] at h
    rcases h with ⟨rfl, rfl⟩ | h
    · exact ⟨hb, rfl⟩
    · exact ih h

variable {f : α → α}

theorem replace_cons (hp : p.Prints write valid) {w : α → Text} {c : Char} {s : Text}
    (h : p true (c :: s) = none) : replace p w (c :: s) = c :: replace p w s :=
  hp.isLocal.replace_cons h

theorem replace_append (hp : p.Prints write valid) {w : α → Text} {a : α} (ha : valid a)
    (r : Text) : replace p w (write a ++ r) = w a ++ replace p w r :=
  hp.isLocal.replace_append (hp.ne_nil a) ((hp.reads _ _ _ _).2 ⟨ha, rfl⟩)

/-- **A search after replacing tokens by tokens finds the new ones in the place of the old
ones.** -/
theorem scan_replace (hp : p.Prints write valid) (hf : ∀ a, valid a → valid (f a))
    (hplain : ∀ c s, p true (c :: s) = none →
      p true (c :: replace p (fun a => write (f a)) s) = none) (s : Text) :
    scan p (replace p (fun a => write (f a)) s) = (scan p s).map (Piece.relabel write f) := by
  induction s using hp.induct with
  | nil => rfl
  | plain c s h ih =>
    rw [hp.replace_cons h, hp.scan_cons (hplain c s h), hp.scan_cons h, ih]
    rfl
  | token a r ha ih =>
    rw [hp.replace_append ha, hp.scan_append (hf a ha), hp.scan_append ha, ih]
    rfl

end Pattern.Prints

end WikiTidy.Text
