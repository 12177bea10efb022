import Mathlib.Data.List.Induction
import WikiTidy.Proofs.Path.LastName
import WikiTidy.Proofs.Table
import WikiTidy.Tree.Operations

/-!
# Trees of folders and files

A tree is *sound* if it is one that a file system can hold: no place stands in it twice, every name
is a proper one, and all that is in it lies in a folder that is in it too. It is *plain* if there
are no symbolic links in it besides.

In a plain tree the way to a place leads to that place and nowhere else (`locate_cases`), so what an
operation reads there is what is there (`read_eq_ok_iff`).
-/

namespace WikiTidy

/-- Every name on the way to the place is a proper one. -/
def Place.IsClean (p : Place) : Prop := ∀ name ∈ p, Path.IsName name

instance (name : Text) : Decidable (Path.IsName name) :=
  decidable_of_iff (name ≠ [] ∧ name ≠ Path.here ∧ name ≠ Path.above ∧ '/' ∉ name)
    ⟨fun ⟨hnil, hhere, habove, hslash⟩ => ⟨hnil, hhere, habove, hslash⟩,
      fun h => ⟨h.ne_nil, h.ne_here, h.ne_above, h.slash⟩⟩

instance (p : Place) : Decidable p.IsClean := inferInstanceAs (Decidable (∀ name ∈ p, _))

theorem Place.isClean_append {p q : Place} :
    Place.IsClean (p ++ q) ↔ p.IsClean ∧ q.IsClean := List.forall_mem_append

/-- A symbolic link. -/
def Entry.isLink : Entry → Bool
  | link _ => true
  | _ => false

namespace Tree

/-- The tree is one that a file system can hold. -/
structure IsSound (t : Tree) : Prop where
  distinct : t.entries.keys.Nodup
  clean : ∀ p ∈ t.entries.keys, p.IsClean
  /-- What is in the tree is in a folder of the tree. -/
  folder : ∀ p ∈ t.entries.keys, t.get? p.dropLast = some .folder

/-- The tree has folders and files only. -/
structure IsPlain (t : Tree) : Prop extends IsSound t where
  noLink : ∀ p target, t.get? p ≠ some (.link target)

variable {t : Tree} {here p q : Place} {names : List Text} {e : Entry} {spot : Spot}
  {jump : Place → List Text → Except Cause Spot}

@[simp] theorem get?_nil (t : Tree) : t.get? [] = some .folder := rfl

theorem get?_of_ne_nil (t : Tree) (hp : p ≠ []) : t.get? p = t.entries.get? p := if_neg hp

/-! ## What is above an entry -/

theorem mem_keys_of_get? (hp : p ≠ []) (h : t.get? p = some e) : p ∈ t.entries.keys := by
  rw [get?_of_ne_nil t hp] at h
  by_contra hnone
  rw [Table.get?_eq_none_iff.2 hnone] at h
  cases h

instance (t : Tree) : Decidable t.IsSound :=
  decidable_of_iff (t.entries.keys.Nodup ∧ (∀ p ∈ t.entries.keys, p.IsClean) ∧
      ∀ p ∈ t.entries.keys, t.get? p.dropLast = some .folder)
    ⟨fun ⟨hdistinct, hclean, hfolder⟩ => ⟨hdistinct, hclean, hfolder⟩,
      fun ht => ⟨ht.distinct, ht.clean, ht.folder⟩⟩

/-- It can be checked that a tree is plain: only what is in the table counts. -/
instance (t : Tree) : Decidable t.IsPlain :=
  decidable_of_iff (t.entries.keys.Nodup ∧ (∀ p ∈ t.entries.keys, p.IsClean) ∧
      (∀ p ∈ t.entries.keys, t.get? p.dropLast = some .folder) ∧
      ∀ p ∈ t.entries.keys, (t.get? p).any Entry.isLink = false) <| by
    constructor
    · rintro ⟨hdistinct, hclean, hfolder, hlink⟩
      refine ⟨⟨hdistinct, hclean, hfolder⟩, fun p target hget => ?_⟩
      have hne : p ≠ [] := by
        rintro rfl
        cases hget
      have hany := hlink p (mem_keys_of_get? hne hget)
      rw [hget] at hany
      cases hany
    · intro ht
      refine ⟨ht.distinct, ht.clean, ht.folder, fun p _ => ?_⟩
      cases hget : t.get? p with
      | none => rfl
      | some e =>
        cases e with
        | folder => rfl
        | file content => rfl
        | link target => exact absurd hget (ht.noLink p target)

theorem IsSound.get?_dropLast (ht : t.IsSound) (h : t.get? p = some e) :
    t.get? p.dropLast = some .folder := by
  by_cases hp : p = []
  · rw [hp]
    rfl
  · exact ht.folder p (mem_keys_of_get? hp h)

/-- **Everything above an entry is a folder.** -/
theorem IsSound.get?_above (ht : t.IsSound) (hq : q ≠ []) (h : t.get? (p ++ q) = some e) :
    t.get? p = some .folder := by
  induction q using List.reverseRecOn generalizing e with
  | nil => exact absurd rfl hq
  | append_singleton q name ih =>
    have hfolder := ht.get?_dropLast h
    rw [← List.append_assoc, List.dropLast_concat] at hfolder
    by_cases hnil : q = []
    · rwa [hnil, List.append_nil] at hfolder
    · exact ih hnil hfolder

theorem IsSound.folder_of_append (ht : t.IsSound) (h : t.get? (p ++ q) = some .folder) :
    t.get? p = some .folder := by
  by_cases hq : q = []
  · rwa [hq, List.append_nil] at h
  · exact ht.get?_above hq h

/-- Nothing is below what is no folder. -/
theorem IsSound.get?_below (ht : t.IsSound) (hq : q ≠ []) (h : t.get? p ≠ some .folder) :
    t.get? (p ++ q) = none := by
  cases hget : t.get? (p ++ q) with
  | none => rfl
  | some e => exact absurd (ht.get?_above hq hget) h

/-! ## The way to a place -/

theorem walk_cons (t : Tree) (jump : Place → List Text → Except Cause Spot) (here : Place)
    {name : Text} (hname : Path.IsName name) (names : List Text) :
    t.walk jump here (name :: names) =
      match t.get? (here ++ [name]) with
      | none => if names = [] then .ok (.vacant (here ++ [name])) else .error .missing
      | some .folder => t.walk jump (here ++ [name]) names
      | some (.file _) => if names = [] then .ok (.present (here ++ [name])) else .error .notFolder
      | some (.link target) =>
        jump (if Path.isRooted target then [] else here) (Text.split '/' target ++ names) := by
  rw [walk, if_neg (by simp [hname.ne_nil, hname.ne_here])]
  exact if_neg hname.ne_above

/-- Proper names lead through folders to what is there. -/
theorem IsPlain.walk_present (ht : t.IsPlain) (hnames : ∀ name ∈ names, Path.IsName name)
    (h : t.get? (here ++ names) = some e) :
    t.walk jump here names = .ok (.present (here ++ names)) := by
  induction names generalizing here with
  | nil => rw [walk, List.append_nil]
  | cons name names ih =>
    have hcons : here ++ name :: names = (here ++ [name]) ++ names := by simp
    rw [walk_cons t jump here (hnames name List.mem_cons_self)]
    rw [hcons] at h ⊢
    by_cases hnil : names = []
    · subst hnil
      rw [List.append_nil] at h ⊢
      rw [h]
      cases e with
      | folder => rfl
      | file content => rfl
      | link target => exact absurd h (ht.noLink _ _)
    · rw [ht.get?_above hnil h]
      exact ih (fun n hn => hnames n (List.mem_cons_of_mem _ hn)) h

/-- Proper names lead nowhere but to their place: something is there, or it is free in a folder. -/
theorem IsPlain.walk_cases (ht : t.IsPlain) (hnames : ∀ name ∈ names, Path.IsName name)
    (hhere : t.get? here = some .folder) (h : t.walk jump here names = .ok spot) :
    (spot = .present (here ++ names) ∧ t.get? (here ++ names) ≠ none) ∨
      (spot = .vacant (here ++ names) ∧ names ≠ [] ∧ t.get? (here ++ names) = none ∧
        t.get? (here ++ names).dropLast = some .folder) := by
  induction names generalizing here with
  | nil =>
    obtain rfl : Spot.present here = spot := by simpa [walk] using h
    exact Or.inl (by simp [hhere])
  | cons name names ih =>
    have hcons : here ++ name :: names = (here ++ [name]) ++ names := by simp
    rw [walk_cons t jump here (hnames name List.mem_cons_self)] at h
    rw [hcons]
    cases hget : t.get? (here ++ [name]) with
    | none =>
      simp only [hget] at h
      split at h
      · next hnil =>
        subst hnil
        obtain rfl : Spot.vacant (here ++ [name]) = spot := by simpa using h
        exact Or.inr (by simp [hget, hhere])
      · cases h
    | some e =>
      cases e with
      | folder =>
        simp only [hget] at h
        have hrest := ih (fun n hn => hnames n (List.mem_cons_of_mem _ hn)) hget h
        refine hrest.imp_right ?_
        rintro ⟨hspot, -, hvacant⟩
        exact ⟨hspot, List.cons_ne_nil _ _, hvacant⟩
      | file content =>
        simp only [hget] at h
        split at h
        · next hnil =>
          subst hnil
          obtain rfl : Spot.present (here ++ [name]) = spot := by simpa using h
          exact Or.inl (by simp [hget])
        · cases h
      | link target => exact absurd hget (ht.noLink _ _)

theorem IsPlain.locate_present (ht : t.IsPlain) (hp : p.IsClean) (h : t.get? p = some e) :
    t.locate p = .ok (.present p) := by
  show t.walk (t.follow linkLimit) [] p = .ok (.present ([] ++ p))
  exact ht.walk_present hp h

/-- **The way to a place ends there.** -/
theorem IsPlain.locate_cases (ht : t.IsPlain) (hp : p.IsClean) (h : t.locate p = .ok spot) :
    (spot = .present p ∧ t.get? p ≠ none) ∨
      (spot = .vacant p ∧ p ≠ [] ∧ t.get? p = none ∧ t.get? p.dropLast = some .folder) := by
  have hwalk : t.walk (t.follow linkLimit) [] p = .ok spot := h
  exact ht.walk_cases hp rfl hwalk

theorem IsPlain.realPlace_eq_ok_iff (ht : t.IsPlain) (hp : p.IsClean) :
    t.realPlace p = .ok q ↔ q = p ∧ t.get? p ≠ none := by
  constructor
  · intro h
    unfold realPlace at h
    split at h
    · cases h
    · next spot hlocate =>
      obtain rfl : _ = q := by simpa using h
      rcases ht.locate_cases hp hlocate with ⟨hspot, hget⟩ | ⟨hspot, -⟩
      · exact ⟨by simpa using hspot, hget⟩
      · cases hspot
    · cases h
  · rintro ⟨rfl, hget⟩
    obtain ⟨e, he⟩ := Option.ne_none_iff_exists'.1 hget
    rw [realPlace, ht.locate_present hp he]

theorem IsPlain.realFolder_eq_ok_iff (ht : t.IsPlain) (hp : p.IsClean) :
    t.realFolder p = .ok q ↔ q = p ∧ t.get? p = some .folder := by
  unfold realFolder
  constructor
  · intro h
    split at h
    · cases h
    · next r hreal =>
      obtain ⟨rfl, -⟩ := (ht.realPlace_eq_ok_iff hp).1 hreal
      split at h
      · next hfolder =>
        obtain rfl : r = q := by simpa using h
        exact ⟨rfl, by simpa [isFolder] using hfolder⟩
      · cases h
  · rintro ⟨rfl, hfolder⟩
    rw [(ht.realPlace_eq_ok_iff hp).2 ⟨rfl, by simp [hfolder]⟩]
    simp [isFolder, hfolder]

/-- **What is read at a place is the file that is there.** -/
theorem IsPlain.read_eq_ok_iff (ht : t.IsPlain) (hp : p.IsClean) {content : Utf8.Bytes} :
    t.read p = .ok content ↔ t.get? p = some (.file content) := by
  unfold read
  constructor
  · intro h
    split at h
    · cases h
    · next q hreal =>
      obtain ⟨rfl, -⟩ := (ht.realPlace_eq_ok_iff hp).1 hreal
      split at h
      · next c hget =>
        obtain rfl : c = content := by simpa using h
        exact hget
      · cases h
      · cases h
  · intro h
    rw [(ht.realPlace_eq_ok_iff hp).2 ⟨rfl, by simp [h]⟩]
    simp only [h]

end Tree

end WikiTidy
