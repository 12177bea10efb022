import Mathlib.Data.List.Forall2
import Mathlib.Data.List.Lex
import WikiTidy.Proofs.Text.Utf8
import WikiTidy.Tree.Place

/-!
# Texts and places in order

`Text.before` compares texts by their 16-bit code units. No character is written by the first units
of another one (`charUnits_append_inj`), so different texts have different units, and of two
different texts one stands before the other (`Text.before_or_before`). The same holds of places,
which are compared name by name and character by character.

A sort puts no element behind one that it is before (`pairwise_not_sortBy`). So elements of which
any two stand in some order are sorted into one in which each is strictly before the next
(`pairwise_sortBy`). Lists in which the order sees no difference are sorted alike
(`forall₂_sortBy`).
-/

namespace WikiTidy

namespace Text

variable {a b c s t : Text}

theorem dictionaryLt_iff {u v : List Nat} : dictionaryLt u v = true ↔ u < v := by
  induction u generalizing v with
  | nil => cases v <;> simp [dictionaryLt]
  | cons n u ih =>
    cases v with
    | nil => simp [dictionaryLt]
    | cons m v => simp [dictionaryLt, ih, List.cons_lt_cons_iff]

/-! ## Code units -/

theorem charUnits_cases (c : Char) :
    ((c.toNat < 0xD800 ∨ 0xDFFF < c.toNat) ∧ charUnits c = [c.toNat]) ∨
      ∃ k, c.toNat = 0x10000 + k ∧ k < 0x100000 ∧
        charUnits c = [0xD800 + k / 0x400, 0xDC00 + k % 0x400] := by
  have hc := Utf8.toNat_cases c
  by_cases h : c.toNat < 0x10000
  · exact Or.inl ⟨by omega, if_pos h⟩
  · refine Or.inr ⟨c.toNat - 0x10000, by omega, by omega, if_neg h⟩

/-- **The units of a character are not the first units of another one.** -/
theorem charUnits_append_inj {c d : Char} {u v : List Nat}
    (h : charUnits c ++ u = charUnits d ++ v) : c = d ∧ u = v := by
  have heq : c.toNat = d.toNat → c = d := fun hcd => Char.toNat_inj.1 hcd
  rcases charUnits_cases c with ⟨hc, hcu⟩ | ⟨k, hc, hk, hcu⟩ <;>
    rcases charUnits_cases d with ⟨hd, hdu⟩ | ⟨l, hd, hl, hdu⟩ <;>
    rw [hcu, hdu] at h
  · obtain ⟨hn, hu⟩ := List.cons.inj h
    exact ⟨heq hn, hu⟩
  · -- A unit of its own is no surrogate.
    have hn := (List.cons.inj h).1
    omega
  · have hn := (List.cons.inj h).1
    omega
  · obtain ⟨hhigh, h⟩ := List.cons.inj h
    obtain ⟨hlow, hu⟩ := List.cons.inj h
    exact ⟨heq (by omega), hu⟩

theorem charUnits_ne_nil (c : Char) : charUnits c ≠ [] := by
  rcases charUnits_cases c with ⟨-, h⟩ | ⟨k, -, -, h⟩ <;> simp [h]

theorem units_cons (c : Char) (s : Text) : units (c :: s) = charUnits c ++ units s := rfl

theorem units_inj (h : units s = units t) : s = t := by
  induction s generalizing t with
  | nil =>
    cases t with
    | nil => rfl
    | cons d t =>
      rw [units_cons] at h
      exact absurd (List.append_eq_nil_iff.1 h.symm).1 (charUnits_ne_nil d)
  | cons c s ih =>
    cases t with
    | nil =>
      rw [units_cons] at h
      exact absurd (List.append_eq_nil_iff.1 h).1 (charUnits_ne_nil c)
    | cons d t =>
      obtain ⟨rfl, hst⟩ := charUnits_append_inj h
      rw [ih hst]

/-! ## The order of texts -/

theorem before_iff : before a b = true ↔ units a < units b := dictionaryLt_iff

theorem before_trans (hab : before a b = true) (hbc : before b c = true) : before a c = true :=
  before_iff.2 ((before_iff.1 hab).trans (before_iff.1 hbc))

theorem not_before_self (a : Text) : ¬before a a = true :=
  fun h => lt_irrefl (units a) (before_iff.1 h)

/-- Of two different texts one stands before the other. -/
theorem before_or_before (h : a ≠ b) : before a b = true ∨ before b a = true := by
  rw [before_iff, before_iff]
  exact lt_or_gt_of_ne fun heq => h (units_inj heq)

end Text

/-! ## Sorting -/

variable {α : Type} {lt : α → α → Bool} {a : α} {as : List α}

theorem pairwise_insertBy (trans : ∀ {a b c}, lt a b = true → lt b c = true → lt a c = true)
    (irrefl : ∀ a, ¬lt a a = true) (has : as.Pairwise fun a b => ¬lt b a = true) :
    (insertBy lt a as).Pairwise fun a b => ¬lt b a = true := by
  induction as with
  | nil => exact List.pairwise_singleton _ a
  | cons b as ih =>
    obtain ⟨hb, has⟩ := List.pairwise_cons.1 has
    by_cases hab : lt a b = true
    · rw [insertBy, if_pos hab]
      refine List.pairwise_cons.2 ⟨fun c hc hca => ?_, List.pairwise_cons.2 ⟨hb, has⟩⟩
      rcases List.mem_cons.1 hc with rfl | hc
      · exact irrefl a (trans hab hca)
      · exact hb c hc (trans hca hab)
    · rw [insertBy, if_neg hab]
      refine List.pairwise_cons.2 ⟨fun c hc => ?_, ih has⟩
      rcases List.mem_cons.1 ((insertBy_perm lt a as).subset hc) with rfl | hc
      · exact hab
      · exact hb c hc

/-- **Sorting puts no element behind one that it is before.** -/
theorem pairwise_not_sortBy (trans : ∀ {a b c}, lt a b = true → lt b c = true → lt a c = true)
    (irrefl : ∀ a, ¬lt a a = true) (as : List α) :
    (sortBy lt as).Pairwise fun a b => ¬lt b a = true := by
  suffices hfold : ∀ sorted : List α, sorted.Pairwise (fun a b => ¬lt b a = true) →
      (as.foldl (fun sorted a => insertBy lt a sorted) sorted).Pairwise fun a b => ¬lt b a = true by
    exact hfold [] .nil
  induction as with
  | nil => exact fun _ hsorted => hsorted
  | cons a as ih => exact fun _ hsorted => ih _ (pairwise_insertBy trans irrefl hsorted)

/-- **Sorting puts elements into a strict order**, if any two of them stand in some order. -/
theorem pairwise_sortBy (trans : ∀ {a b c}, lt a b = true → lt b c = true → lt a c = true)
    (irrefl : ∀ a, ¬lt a a = true) (h : as.Pairwise fun a b => lt a b = true ∨ lt b a = true) :
    (sortBy lt as).Pairwise fun a b => lt a b = true := by
  have hnot : (sortBy lt as).Pairwise fun a b => ¬lt b a = true :=
    pairwise_not_sortBy @trans irrefl as
  have htotal : (sortBy lt as).Pairwise fun a b => lt a b = true ∨ lt b a = true :=
    ((sortBy_perm lt as).pairwise_iff Or.symm).2 h
  exact hnot.imp₂ (fun _ _ hba hor => hor.resolve_right hba) htotal

theorem forall₂_insertBy {R : α → α → Prop} {a' : α} {as' : List α}
    (hlt : ∀ {a a' b b'}, R a a' → R b b' → lt a b = lt a' b') (ha : R a a')
    (has : List.Forall₂ R as as') : List.Forall₂ R (insertBy lt a as) (insertBy lt a' as') := by
  induction has with
  | nil => exact .cons ha .nil
  | cons hb hbs ih =>
    rw [insertBy, insertBy, hlt ha hb]
    split
    · exact .cons ha (.cons hb hbs)
    · exact .cons hb ih

/-- **Sorting keeps two lists aligned**, if the order sees no difference between their elements. -/
theorem forall₂_sortBy {R : α → α → Prop} {as' : List α}
    (hlt : ∀ {a a' b b'}, R a a' → R b b' → lt a b = lt a' b') (h : List.Forall₂ R as as') :
    List.Forall₂ R (sortBy lt as) (sortBy lt as') := by
  suffices hfold : ∀ sorted sorted', List.Forall₂ R sorted sorted' →
      List.Forall₂ R (as.foldl (fun sorted a => insertBy lt a sorted) sorted)
        (as'.foldl (fun sorted a => insertBy lt a sorted) sorted') by
    exact hfold [] [] .nil
  induction h with
  | nil => exact fun _ _ hsorted => hsorted
  | cons ha _ ih => exact fun _ _ hsorted => ih _ _ (forall₂_insertBy hlt ha hsorted)

/-- Texts that do not repeat are sorted strictly. -/
theorem pairwise_sortBy_before {texts : List Text} (h : texts.Nodup) :
    (sortBy Text.before texts).Pairwise fun a b => Text.before a b = true :=
  pairwise_sortBy Text.before_trans Text.not_before_self (h.imp Text.before_or_before)

/-! ## The order of places -/

namespace Place

/-- The characters of the names, as numbers. -/
def codes (p : Place) : List (List Nat) := p.map (List.map Char.toNat)

theorem codes_inj {p q : Place} (h : p.codes = q.codes) : p = q :=
  List.map_injective_iff.2 (List.map_injective_iff.2 fun _ _ => Char.toNat_inj.1) h

theorem before_iff {p q : Place} : before p q = true ↔ p.codes < q.codes := by
  induction p generalizing q with
  | nil => cases q <;> simp [before, codes]
  | cons a p ih =>
    cases q with
    | nil => simp [before, codes]
    | cons b q =>
      have hab : a = b ↔ a.map Char.toNat = b.map Char.toNat :=
        ⟨congrArg _, fun h => List.map_injective_iff.2 (fun _ _ => Char.toNat_inj.1) h⟩
      rw [before, Bool.or_eq_true, Bool.and_eq_true, beq_iff_eq, ih, hab, Text.beforeByChar,
        Text.dictionaryLt_iff]
      exact List.cons_lt_cons_iff.symm

theorem before_trans {p q r : Place} (hpq : before p q = true) (hqr : before q r = true) :
    before p r = true :=
  before_iff.2 ((before_iff.1 hpq).trans (before_iff.1 hqr))

theorem not_before_self (p : Place) : ¬before p p = true :=
  fun h => lt_irrefl p.codes (before_iff.1 h)

/-- The first names decide, where they are in order. -/
theorem before_cons_cons {a b : Text} (h : before [a] [b] = true) (p q : Place) :
    before (a :: p) (b :: q) = true := by
  have hab : Text.beforeByChar a b = true := by simpa [before] using h
  rw [before, hab, Bool.true_or]

/-- Of two different places one stands before the other. -/
theorem before_or_before {p q : Place} (h : p ≠ q) : before p q = true ∨ before q p = true := by
  rw [before_iff, before_iff]
  exact lt_or_gt_of_ne fun heq => h (codes_inj heq)

end Place

end WikiTidy
