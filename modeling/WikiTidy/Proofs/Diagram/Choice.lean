import WikiTidy.Proofs.Diagram.Exits

/-!
# The choice among exits

A choice is made from a list of places, in any order and perhaps with repetitions. A single entry is
taken as it is. Of several, one is taken that every other entry stays below: in the score, if one is
positive, and else in being without a label (`choose_eq_some_iff_erase`). An entry that stands twice
does not stay below itself.

**Theorem (`choose_of_perm`).** The choice does not depend on the order of the list.

Among the exits of a decision none stands twice and none has a label, so of several the one is taken
that *leads* (`choose_eq_some_iff`): its score is positive, and no other exit reaches it.
-/

namespace WikiTidy.Diagram

open Text

variable {es fs edges : List Edge} {texts : Table Text Text} {p : Polarity}
  {candidates : List Nat} {t : Nat}

/-! ## The only one of its kind -/

theorem single?_eq_some_iff {α : Type} {l : List α} {a : α} : single? l = some a ↔ l = [a] := by
  unfold single?
  split
  · simp
  · next h => simpa using h a

/-- The only entry of a class: no other entry of the list is in it. -/
theorem single?_filter_eq_some_iff {q : Nat → Bool} {l : List Nat} :
    single? (l.filter q) = some t ↔ t ∈ l ∧ q t = true ∧ ∀ c ∈ l.erase t, q c = false := by
  have hcut (ht : t ∈ l) (hq : q t = true) :
      (l.filter q).Perm (t :: (l.erase t).filter q) := by
    have hperm := (List.perm_cons_erase ht).filter q
    rwa [List.filter_cons_of_pos hq] at hperm
  rw [single?_eq_some_iff]
  constructor
  · intro h
    obtain ⟨ht, hq⟩ := List.mem_filter.1 (h ▸ List.mem_singleton_self t)
    have hothers := hcut ht hq
    rw [h, List.singleton_perm, List.cons.injEq] at hothers
    refine ⟨ht, hq, fun c hc => ?_⟩
    simpa using List.filter_eq_nil_iff.1 hothers.2.symm c hc
  · rintro ⟨ht, hq, hothers⟩
    have hnil : (l.erase t).filter q = [] :=
      List.filter_eq_nil_iff.2 fun c hc => by simp [hothers c hc]
    have hperm := hcut ht hq
    rwa [hnil, List.perm_singleton] at hperm

theorem exists_best (f : Nat → Int) {candidates : List Nat} (hne : candidates ≠ []) :
    ∃ c ∈ candidates, ((candidates.map f).max?).getD 0 = f c ∧ ∀ d ∈ candidates, f d ≤ f c := by
  cases hmax : (candidates.map f).max? with
  | none => exact absurd (List.map_eq_nil_iff.1 (List.max?_eq_none_iff.1 hmax)) hne
  | some best =>
    obtain ⟨hmem, hle⟩ := List.max?_eq_some_iff.1 hmax
    obtain ⟨c, hc, rfl⟩ := List.mem_map.1 hmem
    exact ⟨c, hc, rfl, fun d hd => hle _ (List.mem_map_of_mem hd)⟩

/-! ## What is chosen -/

/-- **The choice among any entries.** -/
theorem choose_eq_some_iff_erase :
    choose edges texts candidates p = some t ↔
      t ∈ candidates ∧ (2 ≤ candidates.length →
        ((∃ c ∈ candidates, 0 < scoreAt edges texts p c) →
          ∀ c ∈ candidates.erase t, scoreAt edges texts p c < scoreAt edges texts p t) ∧
        ((∀ c ∈ candidates, scoreAt edges texts p c ≤ 0) →
          isUnlabelled edges t = true ∧
            ∀ c ∈ candidates.erase t, isUnlabelled edges c = false)) := by
  unfold choose
  split
  · simp
  · next c =>
    have hshort : ¬2 ≤ [c].length := by simp
    rw [Option.some.injEq, List.mem_singleton]
    exact ⟨fun h => ⟨h.symm, fun hmany => absurd hmany hshort⟩, fun h => h.1.symm⟩
  · next hnil hone =>
    obtain ⟨b, hb, hbest, hle⟩ := exists_best (scoreAt edges texts p) hnil
    have hmany : 2 ≤ candidates.length := by
      match candidates, hnil, hone with
      | [], hnil, _ => exact absurd rfl hnil
      | [c], _, hone => exact absurd rfl (hone c)
      | _ :: _ :: _, _, _ => simp
    simp only [hbest, hmany, true_implies]
    split
    · next hlow =>
      have hall : ∀ c ∈ candidates, scoreAt edges texts p c ≤ 0 := fun c hc => by
        have := hle c hc
        omega
      have hnone : ¬∃ c ∈ candidates, 0 < scoreAt edges texts p c := by
        rintro ⟨c, hc, hpos⟩
        have := hall c hc
        omega
      rw [single?_filter_eq_some_iff]
      refine and_congr_right fun _ => ?_
      exact ⟨fun h => ⟨fun hpos => absurd hpos hnone, fun _ => h⟩, fun h => h.2 hall⟩
    · next hhigh =>
      have hpos : 0 < scoreAt edges texts p b := by omega
      have hnot : ¬∀ c ∈ candidates, scoreAt edges texts p c ≤ 0 := fun h => by
        have := h b hb
        omega
      have hsome : ∃ c ∈ candidates, 0 < scoreAt edges texts p c := ⟨b, hb, hpos⟩
      rw [single?_filter_eq_some_iff]
      simp only [hsome, hnot, true_implies, false_implies, and_true, decide_eq_true_eq,
        decide_eq_false_iff_not]
      refine and_congr_right fun ht => ?_
      constructor
      · rintro ⟨htop, hothers⟩ c hc
        have := hle c (List.mem_of_mem_erase hc)
        have := hothers c hc
        omega
      · intro hothers
        -- The best entry is this one, or another one that stays below it.
        have htop : scoreAt edges texts p t = scoreAt edges texts p b := by
          by_cases hbt : b = t
          · rw [hbt]
          · have := hothers b ((List.mem_erase_of_ne hbt).2 hb)
            have := hle t ht
            omega
        refine ⟨htop, fun c hc heq => ?_⟩
        have := hothers c hc
        omega

theorem mem_of_choose (h : choose edges texts candidates p = some t) : t ∈ candidates :=
  (choose_eq_some_iff_erase.1 h).1

/-! ## Candidates that do not repeat and have no label -/

/-- The place `t` fits the answer best among the candidates: its score is positive, and no other
candidate reaches it. -/
structure Leads (edges : List Edge) (texts : Table Text Text) (p : Polarity)
    (candidates : List Nat) (t : Nat) : Prop where
  mem : t ∈ candidates
  pos : 0 < scoreAt edges texts p t
  lt : ∀ c ∈ candidates, c ≠ t → scoreAt edges texts p c < scoreAt edges texts p t

theorem Leads.of_map_bare_eq (h : es.map Edge.bare = fs.map Edge.bare)
    (ht : Leads es texts p candidates t) : Leads fs texts p candidates t := by
  have hscore := scoreAt_eq_of_map_bare_eq h
  obtain ⟨hmem, hpos, hlt⟩ := ht
  rw [hscore] at hpos hlt
  exact ⟨hmem, hpos, hlt⟩

theorem choose_eq_some_iff (hnd : candidates.Nodup)
    (hfree : ∀ c ∈ candidates, isUnlabelled edges c = true) :
    choose edges texts candidates p = some t ↔
      candidates = [t] ∨ Leads edges texts p candidates t := by
  rw [choose_eq_some_iff_erase]
  constructor
  · rintro ⟨ht, h⟩
    obtain ⟨others, hothers⟩ : ∃ others, candidates.erase t = others := ⟨_, rfl⟩
    have hperm := List.perm_cons_erase ht
    rw [hothers] at hperm h
    cases others with
    | nil => exact Or.inl (List.perm_singleton.1 hperm)
    | cons d others =>
      have hmany : 2 ≤ candidates.length := by
        rw [hperm.length_eq]
        simp
      obtain ⟨hhigh, hlow⟩ := h hmany
      by_cases hpos : ∃ c ∈ candidates, 0 < scoreAt edges texts p c
      · have hlt : ∀ c ∈ candidates, c ≠ t → scoreAt edges texts p c < scoreAt edges texts p t := by
          intro c hc hne
          exact hhigh hpos c (hothers ▸ (List.mem_erase_of_ne hne).2 hc)
        obtain ⟨c, hc, hpos⟩ := hpos
        refine Or.inr ⟨ht, ?_, hlt⟩
        by_cases hct : c = t
        · rwa [hct] at hpos
        · have := hlt c hc hct
          omega
      · -- Every candidate is without a label, so this is not the only one.
        have hall : ∀ c ∈ candidates, scoreAt edges texts p c ≤ 0 := fun c hc =>
          Int.not_lt.1 fun hc' => hpos ⟨c, hc, hc'⟩
        have hlabelled := (hlow hall).2 d List.mem_cons_self
        have hd : d ∈ candidates := hperm.symm.subset (by simp)
        rw [hfree d hd] at hlabelled
        cases hlabelled
  · rintro (rfl | hleads)
    · simp
    · refine ⟨hleads.mem, fun _ => ⟨fun _ c hc => ?_, fun hall => ?_⟩⟩
      · obtain ⟨hne, hc⟩ := (List.Nodup.mem_erase_iff hnd).1 hc
        exact hleads.lt c hc hne
      · have := hall t hleads.mem
        have := hleads.pos
        omega

/-! ## The order of the candidates -/

/-- **The order of the candidates does not matter.** Whatever is chosen is one of them; of several,
if a score is positive, exactly the one that beats every other entry of the list, and if none is,
exactly the only one without a label. -/
theorem choose_of_perm {reordered : List Nat} (h : candidates.Perm reordered) :
    choose edges texts reordered p = choose edges texts candidates p ∧
      ∀ t, choose edges texts candidates p = some t ↔
        t ∈ candidates ∧ (2 ≤ candidates.length →
          ((∃ c ∈ candidates, 0 < scoreAt edges texts p c) →
            ∀ c ∈ candidates.erase t, scoreAt edges texts p c < scoreAt edges texts p t) ∧
          ((∀ c ∈ candidates, scoreAt edges texts p c ≤ 0) →
            isUnlabelled edges t = true ∧
              ∀ c ∈ candidates.erase t, isUnlabelled edges c = false)) := by
  refine ⟨Option.ext fun t => ?_, fun t => choose_eq_some_iff_erase⟩
  have hmem (c : Nat) : c ∈ reordered ↔ c ∈ candidates := h.symm.mem_iff
  have hothers (c : Nat) : c ∈ reordered.erase t ↔ c ∈ candidates.erase t :=
    (h.symm.erase t).mem_iff
  simp only [choose_eq_some_iff_erase, hmem, hothers, h.symm.length_eq]

/-- The exits of a decision: two that lead to good news, one to bad news. -/
def gateway : List Edge :=
  ["S", "E", "R"].map fun node => ⟨0, [], "D".toList, node.toList, "-->".toList, none⟩

/-- What the nodes behind the exits say. -/
def gatewayTexts : Table Text Text :=
  [("S".toList, "Success".toList), ("E".toList, "Error: timeout".toList),
    ("R".toList, "Ready".toList)]

/-- An exit that stands twice in the list is not chosen over itself, wherever it stands. -/
theorem gateway_choice :
    [1, 0, 1].Perm [0, 1, 1] ∧ choose gateway gatewayTexts [0, 1, 1] .positive = some 0 ∧
      choose gateway gatewayTexts [0, 1, 1] .negative = none := by
  have hperm : [1, 0, 1].Perm [0, 1, 1] := by decide
  have hreordered (p : Polarity) : choose gateway gatewayTexts [0, 1, 1] p =
      choose gateway gatewayTexts [1, 0, 1] p := (choose_of_perm hperm).1
  exact ⟨hperm, (hreordered .positive).trans (by decide +kernel),
    (hreordered .negative).trans (by decide +kernel)⟩

end WikiTidy.Diagram
