import WikiTidy.Proofs.Text.Replacing

/-!
# The parts of a text between occurrences

`splitBy` cuts a text at everything that a pattern finds. The first part is read off the head of the
text: it goes on as long as nothing is found (`exists_of_splitBy_eq_append` and
`exists_splitBy_append_cons`). Every other part is the first part of what follows an occurrence
(`exists_of_mem_tail_splitBy`). The converse needs a pattern whose occurrences cannot overlap, so
that one that stands anywhere in the text is found there (`mem_tail_splitBy`).
-/

namespace WikiTidy.Text

variable {α : Type} {p : Pattern α} {s r w x y part : Text} {more : List Text} {a : α} {c d : Char}

theorem splitBy_cons (hp : p.IsLocal) (h : p true (c :: s) = none)
    (hs : splitBy p s = part :: more) : splitBy p (c :: s) = (c :: part) :: more := by
  rw [splitBy] at hs
  rw [splitBy, hp.scan_cons_of_none h, List.foldr_cons, hs]

theorem splitBy_append (hp : p.IsLocal) (hw : w ≠ []) (h : p true (w ++ r) = some (a, r)) :
    splitBy p (w ++ r) = [] :: splitBy p r := by
  rw [splitBy, hp.scan_append_of_some hw h]
  rfl

theorem exists_splitBy_eq_cons (hp : p.IsLocal) (s : Text) :
    ∃ part more, splitBy p s = part :: more := by
  induction s using hp.induct with
  | nil => exact ⟨[], [], rfl⟩
  | plain c s h ih =>
    obtain ⟨part, more, hs⟩ := ih
    exact ⟨c :: part, more, splitBy_cons hp h hs⟩
  | hit a w r hw h _ => exact ⟨[], _, splitBy_append hp hw h⟩

/-- A character of the first part stands at its place in the text, and nothing is found there. -/
theorem exists_of_splitBy_eq_append (hp : p.IsLocal) (h : splitBy p s = (x ++ c :: y) :: more) :
    ∃ r, s = x ++ c :: r ∧ p true (c :: r) = none := by
  induction s using hp.induct generalizing x with
  | nil => simp [splitBy] at h
  | plain e s hplain ih =>
    obtain ⟨part, more', hs⟩ := exists_splitBy_eq_cons hp s
    rw [splitBy_cons hp hplain hs] at h
    obtain ⟨hpart, rfl⟩ := List.cons.inj h
    cases x with
    | nil =>
      obtain ⟨rfl, -⟩ := List.cons.inj hpart
      exact ⟨s, rfl, hplain⟩
    | cons e' x =>
      obtain ⟨rfl, rfl⟩ := List.cons.inj hpart
      obtain ⟨r, rfl, hr⟩ := ih hs
      exact ⟨r, rfl, hr⟩
  | hit a w r hw hread _ =>
    rw [splitBy_append hp hw hread] at h
    simp at h

theorem exists_splitBy_append_cons (hp : p.IsLocal) (hstart : p.StartsWith d) (hx : d ∉ x)
    (h : p true (c :: r) = none) : ∃ y more, splitBy p (x ++ c :: r) = (x ++ c :: y) :: more := by
  induction x with
  | nil =>
    obtain ⟨y, more, hr⟩ := exists_splitBy_eq_cons hp r
    exact ⟨y, more, splitBy_cons hp h hr⟩
  | cons e x ih =>
    rw [List.mem_cons, not_or] at hx
    obtain ⟨y, more, hy⟩ := ih hx.2
    exact ⟨y, more, splitBy_cons hp (hstart.eq_none (Ne.symm hx.1)) hy⟩

/-- Every further part starts behind an occurrence. -/
theorem exists_of_mem_tail_splitBy (hp : p.IsLocal) (h : part ∈ (splitBy p s).tail) :
    ∃ front r a more, p true r = some (a, more) ∧ s = front ++ r ∧
      ∃ parts, splitBy p more = part :: parts := by
  induction s using hp.induct with
  | nil => cases h
  | plain e s hplain ih =>
    obtain ⟨first, parts, hs⟩ := exists_splitBy_eq_cons hp s
    rw [splitBy_cons hp hplain hs] at h
    rw [hs] at ih
    obtain ⟨front, r, a, more, hread, rfl, hmore⟩ := ih h
    exact ⟨e :: front, r, a, more, hread, rfl, hmore⟩
  | hit a w r hw hread ih =>
    obtain ⟨first, parts, hr⟩ := exists_splitBy_eq_cons hp r
    rw [splitBy_append hp hw hread, List.tail_cons, hr] at h
    rcases List.mem_cons.1 h with rfl | h
    · exact ⟨[], w ++ r, a, r, hread, rfl, parts, hr⟩
    · rw [hr] at ih
      obtain ⟨front, r', a', more, hread', rfl, hmore⟩ := ih h
      exact ⟨w ++ front, r', a', more, hread', by simp, hmore⟩

/-- Behind an occurrence the parts are parts of the whole, if no occurrence can overlap another. -/
theorem mem_tail_splitBy (hp : p.IsLocal) (hstart : p.StartsWith d)
    (hsolid : ∀ w r a, p true (w ++ r) = some (a, r) → d ∉ w.tail)
    (hread : p true r = some (a, s)) (front : Text) (h : part ∈ splitBy p s) :
    part ∈ (splitBy p (front ++ r)).tail := by
  generalize htext : front ++ r = text
  induction text using hp.induct generalizing front with
  | nil =>
    obtain ⟨-, rfl⟩ := List.append_eq_nil_iff.1 htext
    cases hstart _ _ _ hread
  | plain e t hplain ih =>
    cases front with
    | nil =>
      rw [List.nil_append] at htext
      rw [htext, hplain] at hread
      cases hread
    | cons e' front =>
      obtain ⟨rfl, ht⟩ := List.cons.inj htext
      obtain ⟨first, parts, hparts⟩ := exists_splitBy_eq_cons hp t
      have hmem := ih front ht
      rw [hparts] at hmem
      rwa [splitBy_cons hp hplain hparts]
  | hit b v t hv hread' ih =>
    rw [splitBy_append hp hv hread', List.tail_cons]
    rcases List.append_eq_append_iff.1 htext with ⟨v', rfl, rfl⟩ | ⟨front', rfl, rfl⟩
    · cases front with
      | nil =>
        rw [List.nil_append, hread, Option.some.injEq, Prod.mk.injEq] at hread'
        exact hread'.2 ▸ h
      | cons e front =>
        cases v' with
        | nil => exact List.mem_of_mem_tail (ih [] rfl)
        | cons e' v' =>
          -- An occurrence that starts within another one starts with its first character.
          have hhead : some e' = some d := hstart _ _ _ hread
          exact absurd (by simp [Option.some.inj hhead]) (hsolid _ _ _ hread')
    · exact List.mem_of_mem_tail (ih front' rfl)

end WikiTidy.Text
