import Mathlib.Data.List.Sort
import WikiTidy.Proofs.Text.Order
import WikiTidy.Proofs.Tree.Plain

/-!
# What is below a folder and where links lead

**Theorem (`mem_listing_iff`).** In a sound tree the listing of a folder has everything that stands
below it, each thing once (`nodup_listing`). It is what a walk finds that goes into each folder
(`listing_eq`). Links are listed as such: what lies behind one is not below the folder
(`listing_eq_nil`).

**Theorem (`hasReal_of_realPlace`).** The way to a place, through however many links, ends at a
folder or a file of the tree, or it fails; it does not end at a link. The way goes from folder to
folder: the names of a target are followed from a folder again, and the folder above one is a folder.
-/

namespace WikiTidy

namespace Tree

variable {t : Tree} {folder here p q : Place} {names : List Text} {e : Entry} {n : Nat}

/-! ## Listings -/

theorem IsSound.throughFolders (ht : t.IsSound) (h : t.get? (folder ++ names) = some e) :
    t.throughFolders folder names = true := by
  induction names generalizing folder with
  | nil => rfl
  | cons a names ih =>
    cases names with
    | nil => rfl
    | cons b names =>
      have hcons : folder ++ a :: b :: names = (folder ++ [a]) ++ (b :: names) := by simp
      rw [hcons] at h
      rw [Tree.throughFolders, ih h, Tree.isFolder, ht.get?_above (List.cons_ne_nil _ _) h]
      rfl

/-- **The listing of a folder has all that is below it**, by the names that lead there. -/
theorem IsSound.mem_listing_iff (ht : t.IsSound) :
    (names, e) ∈ t.listing folder ↔ names ≠ [] ∧ t.get? (folder ++ names) = some e := by
  rw [listing, mem_sortBy, List.mem_filter, List.mem_filterMap]
  constructor
  · intro h
    obtain ⟨⟨⟨p, e'⟩, hmem, hbelow⟩, hkeep⟩ := h
    obtain ⟨names', hnames, heq⟩ := Option.map_eq_some_iff.1 hbelow
    obtain ⟨rfl, rfl⟩ := Prod.mk.inj heq
    obtain rfl := Place.below?_eq_some_iff.1 hnames
    have hne : names' ≠ [] := by
      rw [Bool.and_eq_true] at hkeep
      simpa using hkeep.1
    refine ⟨hne, ?_⟩
    rw [get?_of_ne_nil t (by simp [hne])]
    exact Table.get?_of_mem ht.distinct hmem
  · intro h
    obtain ⟨hne, hget⟩ := h
    refine ⟨⟨(folder ++ names, e), ?_, ?_⟩, ?_⟩
    · rw [get?_of_ne_nil t (by simp [hne])] at hget
      exact Table.mem_of_get? hget
    · show (Place.below? folder (folder ++ names)).map _ = _
      rw [Place.below?_eq_some_iff.2 rfl]
      rfl
    · simp [hne, ht.throughFolders hget]

/-- The names below a folder are proper ones. -/
theorem IsSound.isClean_below (ht : t.IsSound) (hne : names ≠ [])
    (h : t.get? (folder ++ names) = some e) : Place.IsClean names :=
  (Place.isClean_append.1 (ht.clean _ (mem_keys_of_get? (by simp [hne]) h))).2

theorem IsSound.nodup_listing (ht : t.IsSound) (folder : Place) :
    ((t.listing folder).map Prod.fst).Nodup := by
  have hnames : (t.entries.keys.filterMap (Place.below? folder)).Nodup := by
    refine ht.distinct.filterMap fun p q names hp hq => ?_
    rw [Place.below?_eq_some_iff.1 hp, Place.below?_eq_some_iff.1 hq]
  have hfound : (t.entries.filterMap fun x =>
      (Place.below? folder x.1).map fun names => (names, x.2)).map Prod.fst =
      t.entries.keys.filterMap (Place.below? folder) := by
    rw [List.map_filterMap, Table.keys, List.filterMap_map]
    refine List.filterMap_congr fun x _ => ?_
    show ((Place.below? folder x.1).map _).map _ = Place.below? folder x.1
    rw [Option.map_map]
    exact Option.map_id'
  rw [← hfound] at hnames
  exact ((sortBy_perm _ _).map Prod.fst).nodup_iff.2
    (hnames.sublist (List.filter_sublist.map Prod.fst))

/-! ## A listing as a walk -/

/-- What stands in a folder, by name. -/
def children (t : Tree) (folder : Place) : List (Text × Entry) :=
  (t.listing folder).filterMap fun x =>
    match x.1 with
    | [name] => some (name, x.2)
    | _ => none

theorem IsSound.pairwise_listing (ht : t.IsSound) (folder : Place) :
    (t.listing folder).Pairwise fun x y => Place.before x.1 y.1 = true := by
  have hlisting : (t.listing folder).Pairwise fun x y =>
      Place.before x.1 y.1 = true ∨ Place.before y.1 x.1 = true :=
    (List.pairwise_map.1 (ht.nodup_listing folder)).imp Place.before_or_before
  exact pairwise_sortBy Place.before_trans (fun x => Place.not_before_self x.1)
    (((sortBy_perm _ _).pairwise_iff Or.symm).1 hlisting)

theorem IsSound.mem_children_iff (ht : t.IsSound) {name : Text} :
    (name, e) ∈ t.children folder ↔ t.get? (folder ++ [name]) = some e := by
  rw [children, List.mem_filterMap]
  constructor
  · intro h
    obtain ⟨⟨names, e'⟩, hmem, hchild⟩ := h
    split at hchild
    · next first hfirst =>
      obtain ⟨rfl, rfl⟩ : first = name ∧ e' = e := by simpa using hchild
      obtain rfl : names = [first] := hfirst
      exact (ht.mem_listing_iff.1 hmem).2
    · cases hchild
  · intro h
    exact ⟨([name], e), ht.mem_listing_iff.2 ⟨List.cons_ne_nil _ _, h⟩, rfl⟩

theorem IsSound.pairwise_children (ht : t.IsSound) (folder : Place) :
    (t.children folder).Pairwise fun x y => Place.before [x.1] [y.1] = true := by
  refine (ht.pairwise_listing folder).filterMap _ fun x y hxy a ha b hb => ?_
  split at ha
  · next first hfirst =>
    split at hb
    · next second hsecond =>
      rw [hfirst, hsecond] at hxy
      rw [← Option.some.inj ha, ← Option.some.inj hb]
      exact hxy
    · cases hb
  · cases ha

/-- What a walk finds at one thing in a folder: the thing, and all that is below it. -/
def branch (t : Tree) (folder : Place) (child : Text × Entry) : List (List Text × Entry) :=
  ([child.1], child.2) ::
    (t.listing (folder ++ [child.1])).map fun x => (child.1 :: x.1, x.2)

theorem IsSound.mem_branch_iff (ht : t.IsSound) {child : Text × Entry}
    (hchild : t.get? (folder ++ [child.1]) = some child.2) :
    (names, e) ∈ t.branch folder child ↔
      ∃ rest, names = child.1 :: rest ∧ t.get? (folder ++ names) = some e := by
  obtain ⟨name, entry⟩ := child
  rw [branch, List.mem_cons, List.mem_map]
  constructor
  · intro h
    rcases h with h | ⟨⟨rest, e'⟩, hmem, h⟩
    · obtain ⟨rfl, rfl⟩ := Prod.mk.inj h
      exact ⟨[], rfl, hchild⟩
    · obtain ⟨rfl, rfl⟩ := Prod.mk.inj h
      refine ⟨rest, rfl, ?_⟩
      have hget := (ht.mem_listing_iff.1 hmem).2
      rwa [List.append_assoc] at hget
  · intro h
    obtain ⟨rest, rfl, hget⟩ := h
    by_cases hrest : rest = []
    · subst hrest
      rw [hchild, Option.some.injEq] at hget
      exact Or.inl (by rw [← hget])
    · refine Or.inr ⟨(rest, e), ht.mem_listing_iff.2 ⟨hrest, ?_⟩, rfl⟩
      rwa [List.append_assoc]

theorem IsSound.pairwise_branch (ht : t.IsSound) (folder : Place) (child : Text × Entry) :
    (t.branch folder child).Pairwise fun x y => Place.before x.1 y.1 = true := by
  rw [branch, List.pairwise_cons, List.pairwise_map]
  constructor
  · intro x hx
    obtain ⟨⟨rest, e⟩, hmem, rfl⟩ := List.mem_map.1 hx
    obtain ⟨name, rest, rfl⟩ := List.exists_cons_of_ne_nil (ht.mem_listing_iff.1 hmem).1
    simp [Place.before]
  · refine (ht.pairwise_listing _).imp fun hxy => ?_
    simp [Place.before, hxy]

/-- **A listing is a walk**: it takes what stands in the folder by name, each thing before what is
below it. -/
theorem IsSound.listing_eq (ht : t.IsSound) (folder : Place) :
    t.listing folder = (t.children folder).flatMap (t.branch folder) := by
  have hirrefl : Std.Irrefl fun x y : List Text × Entry => Place.before x.1 y.1 = true :=
    ⟨fun x => Place.not_before_self x.1⟩
  have hantisymm : Std.Antisymm fun x y : List Text × Entry => Place.before x.1 y.1 = true :=
    ⟨fun x y hxy hyx => absurd (Place.before_trans hxy hyx) (Place.not_before_self x.1)⟩
  have hwalk : ((t.children folder).flatMap (t.branch folder)).Pairwise
      fun x y => Place.before x.1 y.1 = true := by
    rw [List.pairwise_flatMap]
    refine ⟨fun child _ => ht.pairwise_branch folder child, ?_⟩
    refine (ht.pairwise_children folder).imp_of_mem fun {a b} ha hb hab x hx y hy => ?_
    obtain ⟨p, hp, -⟩ := (ht.mem_branch_iff (ht.mem_children_iff.1 ha)).1 hx
    obtain ⟨q, hq, -⟩ := (ht.mem_branch_iff (ht.mem_children_iff.1 hb)).1 hy
    rw [hp, hq]
    exact Place.before_cons_cons hab p q
  refine (ht.pairwise_listing folder).eq_of_mem_iff hwalk fun x => ?_
  obtain ⟨names, e⟩ := x
  rw [ht.mem_listing_iff, List.mem_flatMap]
  constructor
  · intro h
    obtain ⟨hne, hget⟩ := h
    obtain ⟨name, rest, rfl⟩ := List.exists_cons_of_ne_nil hne
    obtain ⟨e', he'⟩ : ∃ e', t.get? (folder ++ [name]) = some e' := by
      by_cases hrest : rest = []
      · exact ⟨e, by rw [← hget, hrest]⟩
      · refine ⟨.folder, ht.get?_above hrest (e := e) ?_⟩
        rwa [List.append_assoc]
    exact ⟨(name, e'), ht.mem_children_iff.2 he', (ht.mem_branch_iff he').2 ⟨rest, rfl, hget⟩⟩
  · intro h
    obtain ⟨child, hchild, hmem⟩ := h
    obtain ⟨rest, rfl, hget⟩ := (ht.mem_branch_iff (ht.mem_children_iff.1 hchild)).1 hmem
    exact ⟨List.cons_ne_nil _ _, hget⟩

/-- Below what is no folder there is nothing to walk through, be it a link to one. -/
theorem IsSound.listing_eq_nil (ht : t.IsSound) (h : t.get? folder ≠ some .folder) :
    t.listing folder = [] := by
  rw [List.eq_nil_iff_forall_not_mem]
  intro x hx
  obtain ⟨names, e⟩ := x
  obtain ⟨hne, hget⟩ := ht.mem_listing_iff.1 hx
  rw [ht.get?_below hne h] at hget
  cases hget

/-! ## Where links lead -/

/-- A folder or a file is at the place. -/
def HasReal (t : Tree) (p : Place) : Prop :=
  t.get? p = some .folder ∨ ∃ content, t.get? p = some (.file content)

theorem IsSound.hasReal_of_walk (ht : t.IsSound) {jump : Place → List Text → Except Cause Spot}
    (hjump : ∀ here names, t.get? here = some .folder → jump here names = .ok (.present p) →
      t.HasReal p)
    (hhere : t.get? here = some .folder) (h : t.walk jump here names = .ok (.present p)) :
    t.HasReal p := by
  induction names generalizing here with
  | nil =>
    obtain rfl : here = p := by simpa [walk] using h
    exact Or.inl hhere
  | cons name names ih =>
    rw [walk] at h
    by_cases hskip : name = [] ∨ name = Path.here
    · rw [if_pos hskip] at h
      exact ih hhere h
    · rw [if_neg hskip] at h
      by_cases habove : name = Path.above
      · rw [if_pos habove] at h
        exact ih (ht.get?_dropLast hhere) h
      · rw [if_neg habove] at h
        cases hget : t.get? (here ++ [name]) with
        | none =>
          simp only [hget] at h
          split at h <;> cases h
        | some e =>
          cases e with
          | folder =>
            simp only [hget] at h
            exact ih hget h
          | file content =>
            simp only [hget] at h
            split at h
            · obtain rfl : here ++ [name] = p := by simpa using h
              exact Or.inr ⟨content, hget⟩
            · cases h
          | link target =>
            simp only [hget] at h
            refine hjump _ _ ?_ h
            split
            · rfl
            · exact hhere

theorem IsSound.hasReal_of_follow (ht : t.IsSound) (hhere : t.get? here = some .folder)
    (h : t.follow n here names = .ok (.present p)) : t.HasReal p := by
  induction n generalizing here names with
  | zero => cases h
  | succ n ih => exact ht.hasReal_of_walk (fun _ _ hhere h => ih hhere h) hhere h

/-- **The way to a place ends at a folder or a file.** -/
theorem IsSound.hasReal_of_realPlace (ht : t.IsSound) (h : t.realPlace p = .ok q) :
    t.HasReal q := by
  unfold realPlace at h
  split at h
  · cases h
  · next r hlocate =>
    obtain rfl : r = q := by simpa using h
    exact ht.hasReal_of_follow rfl hlocate
  · cases h

end Tree

end WikiTidy
