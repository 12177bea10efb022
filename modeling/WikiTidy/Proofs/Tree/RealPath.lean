import Mathlib.Data.Fintype.Card
import WikiTidy.Proofs.Tree.Listing
import WikiTidy.Tree.RealPath

/-!
# Real paths that never end

**Theorem (`realPath_eq_none_iff`).** A real path is not there exactly if it never ends: if no depth,
however large, is enough for it.

As many links can be within one another as there are, and no path that ends needs more. A depth that
is enough is enough for good (`realPathWithin_mono`), only targets of links of the tree are ever
replaced (`replaceLinks_congr`), and from one depth to the next there is a new target that ends, or
there never will be one again (`exists_stable`).
-/

namespace WikiTidy.Tree

variable {t : Tree} {here p q : Place} {names : List Text} {target : Text} {n m : Nat}
  {found : Except Failure Place} {jump jump' : Place → Option (Except Failure Place)}

/-! ## Depth -/

/-- What a link of the tree is replaced by. -/
def goals (t : Tree) : List Place :=
  t.entries.filterMap fun (p, e) =>
    match e with
    | .link target => some (Place.resolve p.dropLast target)
    | _ => none

theorem length_goals_le (t : Tree) : t.goals.length ≤ t.entries.length :=
  List.length_filterMap_le _ _

theorem mem_goals {name : Text} (h : t.get? (here ++ [name]) = some (.link target)) :
    Place.resolve here target ∈ t.goals := by
  rw [get?_of_ne_nil t (by simp)] at h
  exact List.mem_filterMap.2 ⟨_, Table.mem_of_get? h, by simp⟩

/-- **Only targets of links are ever replaced.** -/
theorem replaceLinks_congr (h : ∀ p ∈ t.goals, jump p = jump' p) (here : Place)
    (names : List Text) : t.replaceLinks jump here names = t.replaceLinks jump' here names := by
  induction names generalizing here with
  | nil => rfl
  | cons name names ih =>
    simp only [replaceLinks]
    split
    · rfl
    · next target hget =>
      rw [h _ (mem_goals hget)]
      split
      · rfl
      · split
        · exact ih _
        · rfl
    · exact ih _

theorem replaceLinks_mono (h : ∀ p found, jump p = some found → jump' p = some found)
    (hfound : t.replaceLinks jump here names = some found) :
    t.replaceLinks jump' here names = some found := by
  induction names generalizing here with
  | nil => exact hfound
  | cons name names ih =>
    simp only [replaceLinks] at hfound ⊢
    cases hget : t.get? (here ++ [name]) with
    | none => simpa only [hget] using hfound
    | some e =>
      simp only [hget] at hfound ⊢
      cases e with
      | folder => exact ih hfound
      | file content => exact ih hfound
      | link target =>
        dsimp only at hfound ⊢
        cases hreal : t.realPlace (here ++ [name]) with
        | error cause => simpa only [hreal] using hfound
        | ok real =>
          simp only [hreal] at hfound ⊢
          cases hjump : jump (Place.resolve here target) with
          | none =>
            rw [hjump] at hfound
            cases hfound
          | some ended =>
            rw [hjump] at hfound
            rw [h _ _ hjump]
            cases ended with
            | error failure => exact hfound
            | ok q => exact ih hfound

theorem realPathWithin_succ (h : t.realPathWithin n p = some found) :
    t.realPathWithin (n + 1) p = some found := by
  induction n generalizing p found with
  | zero => cases h
  | succ n ih => exact replaceLinks_mono (fun _ _ => ih) h

/-- **A depth that is enough is enough for good.** -/
theorem realPathWithin_mono (hnm : n ≤ m) (h : t.realPathWithin n p = some found) :
    t.realPathWithin m p = some found := by
  induction m, hnm using Nat.le_induction with
  | base => exact h
  | succ m _ ih => exact realPathWithin_succ ih

/-- Of values that once they are there stay as they are, none is new at one of the first steps, as
many as there are values and one. -/
theorem exists_stable {α β : Type} [DecidableEq α] {f : Nat → α → Option β}
    (hmono : ∀ {n m a b}, n ≤ m → f n a = some b → f m a = some b) (as : List α) :
    ∃ n ≤ as.length, ∀ a ∈ as, f (n + 1) a = f n a := by
  by_contra hno
  push Not at hno
  -- at each of these steps a value is new, so one of them is new at two steps
  choose fresh hmem hfresh using fun n : Fin (as.length + 1) => hno n (Nat.le_of_lt_succ n.2)
  have hnew : ∀ n : Fin (as.length + 1), f n (fresh n) = none ∧ f (n + 1) (fresh n) ≠ none := by
    intro n
    have hnone : f n (fresh n) = none := by
      by_contra hsome
      obtain ⟨b, hb⟩ := Option.ne_none_iff_exists'.1 hsome
      exact hfresh n ((hmono (Nat.le_succ n) hb).trans hb.symm)
    exact ⟨hnone, fun hlater => hfresh n (hlater.trans hnone.symm)⟩
  have hne : ∀ n m, n < m → fresh n ≠ fresh m := by
    intro n m hnm heq
    obtain ⟨b, hb⟩ := Option.ne_none_iff_exists'.1 (hnew n).2
    have hstill := hmono (Nat.succ_le_of_lt hnm) hb
    rw [heq, (hnew m).1] at hstill
    cases hstill
  have hcard : as.toFinset.card < (Finset.univ : Finset (Fin (as.length + 1))).card := by
    rw [Finset.card_univ, Fintype.card_fin]
    exact Nat.lt_succ_of_le as.toFinset_card_le
  obtain ⟨n, -, m, -, hnm, heq⟩ := Finset.exists_ne_map_eq_of_card_lt_of_maps_to hcard
    (f := fresh) fun n _ => List.mem_toFinset.2 (hmem n)
  rcases lt_or_gt_of_ne hnm with hlt | hgt
  · exact hne n m hlt heq
  · exact hne m n hgt heq.symm

/-- **No more depth is needed than there are links.** -/
theorem realPathWithin_eq_realPath (hn : t.entries.length + 1 ≤ n) (p : Place) :
    t.realPathWithin n p = t.realPath p := by
  obtain ⟨k, hk, hstable⟩ :=
    exists_stable (f := t.realPathWithin) (fun hnm h => realPathWithin_mono hnm h) t.goals
  -- from this depth on nothing is new, first of what links are replaced by, then of all else
  have hgoals : ∀ m, k ≤ m → ∀ p ∈ t.goals, t.realPathWithin m p = t.realPathWithin k p := by
    intro m hkm
    induction m, hkm using Nat.le_induction with
    | base => exact fun p _ => rfl
    | succ m _ ih => exact fun p hp => (replaceLinks_congr ih [] p).trans (hstable p hp)
  have hall : ∀ m, k ≤ m → t.realPathWithin (m + 1) p = t.realPathWithin (k + 1) p :=
    fun m hm => replaceLinks_congr (hgoals m hm) [] p
  have hlength : k ≤ t.entries.length := hk.trans t.length_goals_le
  obtain ⟨m, rfl⟩ := Nat.exists_eq_add_of_le' (Nat.le_of_add_left_le hn)
  rw [realPath, hall _ hlength, hall _ (hlength.trans (Nat.le_of_add_le_add_right hn))]

theorem realPath_eq_none_iff : t.realPath p = none ↔ ∀ n, t.realPathWithin n p = none := by
  constructor
  · intro h n
    by_contra hsome
    obtain ⟨found, hfound⟩ := Option.ne_none_iff_exists'.1 hsome
    have hlarge := realPathWithin_mono (Nat.le_max_left n (t.entries.length + 1)) hfound
    rw [realPathWithin_eq_realPath (Nat.le_max_right _ _), h] at hlarge
    cases hlarge
  · exact fun h => h _

theorem realPath_of_within (h : t.realPathWithin n p = some found) : t.realPath p = some found := by
  rw [← realPathWithin_eq_realPath (Nat.le_max_right n (t.entries.length + 1))]
  exact realPathWithin_mono (Nat.le_max_left _ _) h

/-! ## What is at a real path -/

theorem hasReal_of_replaceLinks (hjump : ∀ p q, jump p = some (.ok q) → t.HasReal q)
    (hhere : t.HasReal here) (h : t.replaceLinks jump here names = some (.ok q)) :
    t.HasReal q := by
  induction names generalizing here with
  | nil =>
    obtain rfl : here = q := by simpa [replaceLinks] using h
    exact hhere
  | cons name names ih =>
    rw [replaceLinks] at h
    cases hget : t.get? (here ++ [name]) with
    | none =>
      simp only [hget] at h
      cases h
    | some e =>
      simp only [hget] at h
      cases e with
      | folder => exact ih (Or.inl hget) h
      | file content => exact ih (Or.inr ⟨content, hget⟩) h
      | link target =>
        dsimp only at h
        split at h
        · cases h
        · split at h
          · next r hr => exact ih (hjump _ r hr) h
          · exact hjump _ q h

/-- **A real path leads to a folder or a file.** -/
theorem hasReal_of_realPath (h : t.realPath p = some (.ok q)) : t.HasReal q := by
  have hwithin : ∀ n p q, t.realPathWithin n p = some (.ok q) → t.HasReal q := by
    intro n
    induction n with
    | zero =>
      intro p q h
      cases h
    | succ n ih => exact fun p q h => hasReal_of_replaceLinks ih (Or.inl rfl) h
  exact hwithin _ p q h

/-! ## Below a folder -/

theorem replaceLinks_append (here : Place) (names rest : List Text) :
    t.replaceLinks jump here (names ++ rest) =
      match t.replaceLinks jump here names with
      | some (.ok q) => t.replaceLinks jump q rest
      | failed => failed := by
  induction names generalizing here with
  | nil => rfl
  | cons name names ih =>
    simp only [List.cons_append, replaceLinks]
    cases t.get? (here ++ [name]) with
    | none => rfl
    | some e =>
      cases e with
      | folder => exact ih _
      | file content => exact ih _
      | link target =>
        dsimp only
        cases t.realPlace (here ++ [name]) with
        | error cause => rfl
        | ok r =>
          dsimp only
          cases jump (Place.resolve here target) with
          | none => rfl
          | some found =>
            cases found with
            | error failure => rfl
            | ok q => exact ih q

theorem IsSound.replaceLinks_folder (ht : t.IsSound) (h : t.get? (here ++ names) = some .folder)
    (rest : List Text) :
    t.replaceLinks jump here (names ++ rest) = t.replaceLinks jump (here ++ names) rest := by
  induction names generalizing here with
  | nil => rw [List.nil_append, List.append_nil]
  | cons name names ih =>
    rw [List.append_cons] at h ⊢
    rw [List.cons_append, replaceLinks, ht.folder_of_append h]
    exact ih h

theorem IsSound.replaceLinks_root (ht : t.IsSound) (h : t.get? names = some .folder)
    (rest : List Text) : t.replaceLinks jump [] (names ++ rest) = t.replaceLinks jump names rest :=
  ht.replaceLinks_folder (show t.get? ([] ++ names) = some .folder from h) rest

/-- A path below a folder goes on from the real path of the folder. -/
theorem IsSound.realPath_append (ht : t.IsSound) (h : t.realPath p = some (.ok q))
    (hfolder : t.get? q = some .folder) (names : List Text) :
    t.realPath (p ++ names) = t.realPath (q ++ names) := by
  have hp : t.replaceLinks (t.realPathWithin t.entries.length) [] p = some (.ok q) := h
  show t.replaceLinks (t.realPathWithin t.entries.length) [] (p ++ names) =
    t.replaceLinks (t.realPathWithin t.entries.length) [] (q ++ names)
  rw [replaceLinks_append, hp, ht.replaceLinks_root hfolder]

end WikiTidy.Tree
