import WikiTidy.Proofs.Numbering.Renaming
import WikiTidy.Proofs.Text.Replacing

/-!
# Links of a page when pages are renamed

A link target is a token: it is read back exactly as it is written (`linkTarget_prints`). A target
that follows a renamed page is again a target, so a search of the new page finds the new targets in
the place of the old ones and nothing else has changed (`scan_followLinks`).

The one thing to see is that no replacement turns a `](` without a target into a link. A `](` has no
target if a closing parenthesis follows at once, which no replacement changes, or if none follows at
all, and then no link follows either.
-/

namespace WikiTidy.Numbering

open Text

/-- What can stand between the parentheses of a link. -/
def IsTarget (t : Text) : Prop := t ≠ [] ∧ ')' ∉ t

theorem linkTarget_eq_some_iff {b : Bool} {s t r : Text} :
    linkTarget b s = some (t, r) ↔ IsTarget t ∧ s = renderTarget t ++ r := by
  constructor
  · intro h
    simp only [linkTarget, Option.bind_eq_bind, Option.bind_eq_some_iff] at h
    obtain ⟨s₁, h₁, ⟨t', s₂⟩, h₂, s₃, h₃, he⟩ := h
    obtain ⟨rfl, rfl⟩ : t' = t ∧ s₃ = r := by simpa using he
    obtain ⟨rfl, hne, hall, -⟩ := run?_eq_some h₂
    rw [after?_eq_some_iff] at h₁ h₃
    refine ⟨⟨hne, fun hmem => by simpa using hall _ hmem⟩, ?_⟩
    rw [h₁, show s₂ = [')'] ++ s₃ from h₃]
    simp [renderTarget]
  · rintro ⟨⟨hne, hparen⟩, rfl⟩
    have hrun : run? (· != ')') (t ++ ')' :: r) = some (t, ')' :: r) :=
      run?_append hne (all_ne_of_notMem hparen) (by simp)
    simp [linkTarget, renderTarget, after?, hrun]

theorem linkTarget_prints : Pattern.Prints linkTarget renderTarget IsTarget where
  reads _ _ _ _ := linkTarget_eq_some_iff
  ne_nil _ := by simp [renderTarget]

/-! ## Replacing targets -/

/-- Every target of a page replaced. -/
def mapTargets (f : Text → Text) (page : Text) : Text :=
  replace linkTarget (fun t => renderTarget (f t)) page

variable {f : Text → Text}

theorem linkTarget_cons_of_ne {c : Char} (h : c ≠ ']') (b : Bool) (s : Text) :
    linkTarget b (c :: s) = none := by
  simp [linkTarget, after?, Ne.symm h]

theorem mem_of_mem_mapTargets {s : Text} (h : ')' ∈ mapTargets f s) : ')' ∈ s := by
  induction s using linkTarget_prints.induct with
  | nil => simp [mapTargets, replace] at h
  | plain c s hc ih =>
    rw [mapTargets, linkTarget_prints.replace_cons hc] at h
    rcases List.mem_cons.1 h with rfl | h
    · exact List.mem_cons_self
    · exact List.mem_cons_of_mem _ (ih h)
  | token t r ht ih => simp [renderTarget]

theorem cons_of_mapTargets {s rest : Text} (h : mapTargets f s = '(' :: rest) :
    ∃ s', s = '(' :: s' ∧ rest = mapTargets f s' := by
  obtain ⟨s', rfl, rfl⟩ := linkTarget_prints.isLocal.exists_of_replace_eq_append (w := ['('])
    (fun _ => rfl) (by decide) h
  exact ⟨s', rfl, rfl⟩

/-- **Replacing targets makes no new link.** -/
theorem linkTarget_mapTargets {c : Char} {s : Text} (h : linkTarget true (c :: s) = none) :
    linkTarget true (c :: mapTargets f s) = none := by
  rw [Option.eq_none_iff_forall_ne_some]
  rintro ⟨t, r⟩ hlink
  obtain ⟨⟨hne, hparen⟩, heq⟩ := linkTarget_eq_some_iff.1 hlink
  obtain ⟨rfl, htail⟩ := List.cons.inj heq
  obtain ⟨s, rfl, hs⟩ := cons_of_mapTargets htail
  have hmem : ')' ∈ s := mem_of_mem_mapTargets (f := f) (by rw [← hs]; simp)
  obtain ⟨u, v, rfl, hu⟩ := List.eq_append_cons_of_mem hmem
  have hune : u ≠ [] := by
    rintro rfl
    obtain ⟨x, t', rfl⟩ := List.exists_cons_of_ne_nil hne
    rw [List.nil_append, mapTargets,
      linkTarget_prints.replace_cons (linkTarget_cons_of_ne (by decide) _ _)] at hs
    obtain ⟨rfl, -⟩ := List.cons.inj hs
    exact hparen List.mem_cons_self
  have hfound : linkTarget true (']' :: '(' :: (u ++ ')' :: v)) = some (u, v) :=
    linkTarget_eq_some_iff.2 ⟨⟨hune, hu⟩, by simp [renderTarget]⟩
  rw [hfound] at h
  cases h

theorem scan_mapTargets (hf : ∀ t, IsTarget t → IsTarget (f t)) (page : Text) :
    scan linkTarget (mapTargets f page) =
      (scan linkTarget page).map (Piece.relabel renderTarget f) :=
  linkTarget_prints.scan_replace hf (fun _ _ h => linkTarget_mapTargets h) page

/-- Targets that stay as they are leave the page as it is. -/
theorem mapTargets_eq_self (hf : ∀ t, f t = t) (page : Text) : mapTargets f page = page := by
  induction page using linkTarget_prints.induct with
  | nil => rfl
  | plain c s hc ih => rw [mapTargets, linkTarget_prints.replace_cons hc, ← mapTargets, ih]
  | token t r ht ih =>
    rw [mapTargets, linkTarget_prints.replace_append ht, ← mapTargets, ih, hf]

/-! ## Following renamed pages -/

theorem splitAnchor_append (target : Text) :
    (splitAnchor target).1 ++ (splitAnchor target).2 = target :=
  List.takeWhile_append_dropWhile

theorem followLinks_nil (dir page : Text) : followLinks dir [] page = page := by
  refine mapTargets_eq_self (fun t => ?_) page
  simp [follow, Table.get?]

variable {renames : Table Text Text} {dir target new : Text}

theorem follow_of_not_isRelative (h : isRelative target = false) :
    follow dir renames target = target := by
  simp [follow, h]

theorem follow_of_none (h : renames.get? (Path.join dir (splitAnchor target).1) = none) :
    follow dir renames target = target := by
  simp only [follow, h]
  split <;> rfl

theorem follow_of_some (hrel : isRelative target = true)
    (h : renames.get? (Path.join dir (splitAnchor target).1) = some new) :
    follow dir renames target =
      (splitLast '/' (splitAnchor target).1).1 ++ Path.leaf new ++ (splitAnchor target).2 := by
  simp [follow, hrel, h]

theorem isTarget_follow (hnew : ∀ old new, renames.get? old = some new → Renumbers old new)
    (ht : IsTarget target) : IsTarget (follow dir renames target) := by
  cases hrel : isRelative target with
  | false => rwa [follow_of_not_isRelative hrel]
  | true =>
    cases hget : renames.get? (Path.join dir (splitAnchor target).1) with
    | none => rwa [follow_of_none hget]
    | some new =>
      obtain ⟨stem, name, n, hstem, hname, hparen, -, rfl⟩ := hnew _ _ hget
      have hnum := isName_numbered hname n
      rw [follow_of_some hrel hget, Path.leaf_append hstem hnum.ne_nil hnum.slash]
      refine ⟨by simp, ?_⟩
      have hold := ht.2
      rw [← splitAnchor_append target, (splitLast_spec '/' (splitAnchor target).1).1] at hold
      simp only [List.mem_append, List.mem_cons, not_or] at hold ⊢
      exact ⟨⟨hold.1.1, notMem_pad (by decide), by decide, hparen⟩, hold.2⟩

/-- **A search of the new page finds the new targets in the place of the old ones.** -/
theorem scan_followLinks (hnew : ∀ old new, renames.get? old = some new → Renumbers old new)
    (page : Text) :
    scan linkTarget (followLinks dir renames page) =
      (scan linkTarget page).map (Piece.relabel renderTarget (follow dir renames)) :=
  scan_mapTargets (fun _ ht => isTarget_follow hnew ht) page

end WikiTidy.Numbering
