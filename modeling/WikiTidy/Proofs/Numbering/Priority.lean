import Mathlib.Data.List.Perm.Basic
import WikiTidy.Proofs.Numbering.Position
import WikiTidy.Proofs.Text.Order

/-!
# Which readme numbers a page

**Theorem (`number_renames_as_listed`).** A page is renamed exactly when its name has no number and
a readme lists it. The first readme that lists it decides, deeper folders before others and folders
of one depth by the paths of their readmes. The page stays in its folder, and its name gets the
number that this readme has for it.

When no two pages have one path, any two readmes stand in a strict order (`Precedes`), so there is
one sorted list of them and the order of the pages does not matter. In this list nothing in front of
the first readme that lists a page has a number for the page.
-/

namespace WikiTidy.Numbering

open Text

variable {documents documents' : List Document} {a b c r d : Document} {path : Text} {n : Nat}

/-! ## The order of readmes -/

/-- The names of the folders that lead to a page. -/
def folders (path : Text) : List Text := (split '/' path).dropLast

/-- A readme comes before another one: it is in a deeper folder, or in one as deep with a path that
stands first. -/
def Precedes (a b : Document) : Prop :=
  (folders b.path).length < (folders a.path).length ∨
    (folders a.path).length = (folders b.path).length ∧ before a.path b.path = true

theorem asksBefore_iff : asksBefore a b = true ↔ Precedes a b := by
  have hdepth : ∀ p, Path.depth p = (folders p).length + 1 := by
    intro p
    have := List.length_pos_of_ne_nil (split_ne_nil '/' p)
    rw [Path.depth, folders, List.length_dropLast]
    omega
  simp [asksBefore, Precedes, hdepth]

theorem Precedes.trans (hab : Precedes a b) (hbc : Precedes b c) : Precedes a c := by
  rcases hab with hab | ⟨hab, hbefore⟩
  · rcases hbc with hbc | ⟨hbc, -⟩
    · exact Or.inl (hbc.trans hab)
    · exact Or.inl (hbc ▸ hab)
  · rcases hbc with hbc | ⟨hbc, hbefore'⟩
    · exact Or.inl (hab ▸ hbc)
    · exact Or.inr ⟨hab.trans hbc, before_trans hbefore hbefore'⟩

theorem not_precedes_self (a : Document) : ¬Precedes a a := by
  rintro (h | ⟨-, h⟩)
  · exact lt_irrefl _ h
  · exact not_before_self a.path h

theorem Precedes.asymm (hab : Precedes a b) : ¬Precedes b a :=
  fun hba => not_precedes_self a (hab.trans hba)

theorem precedes_or_precedes (h : a.path ≠ b.path) : Precedes a b ∨ Precedes b a := by
  rcases Nat.lt_trichotomy (folders a.path).length (folders b.path).length with hlt | heq | hlt
  · exact Or.inr (Or.inl hlt)
  · rcases before_or_before h with hab | hba
    · exact Or.inl (Or.inr ⟨heq, hab⟩)
    · exact Or.inr (Or.inr ⟨heq.symm, hba⟩)
  · exact Or.inl (Or.inl hlt)

theorem mem_readmes : r ∈ readmes documents ↔ r ∈ documents ∧ Path.leaf r.path = readmeName := by
  rw [readmes, mem_sortBy, List.mem_filter, beq_iff_eq]

theorem asksBefore_trans (hab : asksBefore a b = true) (hbc : asksBefore b c = true) :
    asksBefore a c = true :=
  asksBefore_iff.2 ((asksBefore_iff.1 hab).trans (asksBefore_iff.1 hbc))

theorem not_asksBefore_self (a : Document) : ¬asksBefore a a = true :=
  fun h => not_precedes_self a (asksBefore_iff.1 h)

/-- No readme is asked after one that it comes before. -/
theorem pairwise_not_readmes (documents : List Document) :
    (readmes documents).Pairwise fun a b => ¬Precedes b a := by
  have hsorted : (readmes documents).Pairwise fun a b => ¬asksBefore b a = true :=
    pairwise_not_sortBy @asksBefore_trans not_asksBefore_self _
  simpa only [asksBefore_iff] using hsorted

/-- **Readmes are asked in a strict order**, when no two of them have one path. -/
theorem pairwise_readmes (hpaths : (documents.map Document.path).Nodup) :
    (readmes documents).Pairwise Precedes := by
  have hsorted : (readmes documents).Pairwise fun a b => asksBefore a b = true := by
    refine pairwise_sortBy @asksBefore_trans not_asksBefore_self ?_
    refine ((List.pairwise_map.1 hpaths).filter _).imp fun h => ?_
    simpa only [asksBefore_iff] using precedes_or_precedes h
  exact hsorted.imp asksBefore_iff.1

/-! ## The first readme that lists a page -/

theorem lists_iff :
    Lists r d ↔ Path.leaf r.path = readmeName ∧
      ∃ n, IsNumber (Path.folder r.path) d.path (entries r.updated) n := by
  simp only [← number?_eq_some_iff, ← Option.ne_none_iff_exists', ne_eq, number?_eq_none_iff,
    not_forall, not_not, Lists, exists_prop]

/-- The readme comes before all others that list the page. -/
structure IsFirst (documents : List Document) (r d : Document) : Prop where
  mem : r ∈ documents
  lists : Lists r d
  precedes : ∀ q ∈ documents, Lists q d → q ≠ r → Precedes r q

theorem isFirst_of_not_precedes (hpaths : (documents.map Document.path).Nodup)
    (hr : r ∈ documents) (hlists : Lists r d)
    (h : ∀ q ∈ documents, Lists q d → ¬Precedes q r) : IsFirst documents r d := by
  refine ⟨hr, hlists, fun q hq hlistsq hne => ?_⟩
  have hpath : q.path ≠ r.path := fun heq => hne (List.inj_on_of_nodup_map hpaths hq hr heq)
  exact (precedes_or_precedes hpath).resolve_left (h q hq hlistsq)

/-- Of the readmes that list a page one is the first. -/
theorem exists_isFirst (hpaths : (documents.map Document.path).Nodup) (hr : r ∈ documents)
    (hlists : Lists r d) : ∃ q, IsFirst documents q d := by
  cases hfind : (readmes documents).find? fun q => Lists q d with
  | none =>
    have hnone := List.find?_eq_none.1 hfind r (mem_readmes.2 ⟨hr, hlists.1⟩)
    exact absurd (by simpa using hlists) hnone
  | some q =>
    obtain ⟨hq, front, back, hsplit, hfront⟩ := List.find?_eq_some_iff_append.1 hfind
    have hsorted := pairwise_readmes hpaths
    rw [hsplit] at hsorted
    have hafter := (List.pairwise_cons.1 (List.pairwise_append.1 hsorted).2.1).1
    refine ⟨q, (mem_readmes.1 (List.mem_of_find?_eq_some hfind)).1, by simpa using hq, ?_⟩
    intro p hp hlistsp hne
    have hmem : p ∈ front ++ q :: back := hsplit ▸ mem_readmes.2 ⟨hp, hlistsp.1⟩
    rcases List.mem_append.1 hmem with hmem | hmem
    · exact absurd hlistsp (by simpa using hfront p hmem)
    · exact hafter p ((List.mem_cons.1 hmem).resolve_left hne)

/-- **The first readme that lists a page numbers it.** -/
theorem IsFirst.get?_renames (hpaths : (documents.map Document.path).Nodup) (hd : d ∈ documents)
    (hnumber : isNumbered (Path.leaf d.path) = false) (hr : IsFirst documents r d) :
    ∃ n, IsNumber (Path.folder r.path) d.path (entries r.updated) n ∧
      (renames documents).get? d.path = some (numbered n d.path) := by
  obtain ⟨hreadme, n, hn⟩ := lists_iff.1 hr.lists
  refine ⟨n, hn, ?_⟩
  obtain ⟨front, back, hsplit⟩ := List.append_of_mem (mem_readmes.2 ⟨hr.mem, hreadme⟩)
  have hsorted := pairwise_readmes hpaths
  rw [hsplit] at hsorted
  -- A readme in front of the first one would come before it and list the page.
  have hfront : ∀ q ∈ front,
      number? (Path.folder q.path) d.path (entries q.updated) = none := by
    intro q hq
    by_contra hsome
    obtain ⟨m, hm⟩ := Option.ne_none_iff_exists'.1 hsome
    have hmem : q ∈ readmes documents := hsplit ▸ List.mem_append_left _ hq
    obtain ⟨hqmem, hqreadme⟩ := mem_readmes.1 hmem
    have hqr : Precedes q r := (List.pairwise_append.1 hsorted).2.2 q hq r List.mem_cons_self
    have hne : q ≠ r := by
      rintro rfl
      exact not_precedes_self q hqr
    have hlists := lists_iff.2 ⟨hqreadme, m, number?_eq_some_iff.1 hm⟩
    exact (hr.precedes q hqmem hlists hne).asymm hqr
  have hsite : (documents.any fun e => e.path = d.path) = true :=
    List.any_eq_true.2 ⟨d, hd, by simp⟩
  have hfirst : (readmes documents).findSome? (fun q =>
      number? (Path.folder q.path) d.path (entries q.updated)) = some n :=
    List.findSome?_eq_some_iff.2 ⟨front, r, back, hsplit, number?_eq_some_iff.2 hn, hfront⟩
  rw [get?_renames_eq, hsite, hnumber, hfirst]
  rfl

/-! ## The order of the pages -/

/-- **The order of the pages does not matter** to the readmes. -/
theorem readmes_eq_of_perm (hpaths : (documents.map Document.path).Nodup)
    (hperm : documents'.Perm documents) : readmes documents' = readmes documents := by
  have hpaths' : (documents'.map Document.path).Nodup :=
    (hperm.map Document.path).nodup_iff.2 hpaths
  refine List.Perm.eq_of_pairwise (fun a b _ _ hab hba => absurd hba hab.asymm)
    (pairwise_readmes hpaths') (pairwise_readmes hpaths) ?_
  exact (sortBy_perm _ _).trans ((hperm.filter _).trans (sortBy_perm _ _).symm)

theorem renames_eq_of_perm (hpaths : (documents.map Document.path).Nodup)
    (hperm : documents'.Perm documents) : renames documents' = renames documents := by
  have hsite : ∀ old, (documents'.any fun d => d.path = old) =
      documents.any fun d => d.path = old := by
    intro old
    rw [Bool.eq_iff_iff, List.any_eq_true, List.any_eq_true]
    simp only [hperm.mem_iff]
  simp only [renames, readmes_eq_of_perm hpaths hperm, hsite]

theorem zip_number_perm (hpaths : (documents.map Document.path).Nodup)
    (hperm : documents'.Perm documents) :
    (documents'.zip (number documents')).Perm (documents.zip (number documents)) := by
  have hpaths' : (documents'.map Document.path).Nodup :=
    (hperm.map Document.path).nodup_iff.2 hpaths
  rw [number_eq_map hpaths', number_eq_map hpaths, renames_eq_of_perm hpaths hperm,
    ← List.map_prod_left_eq_zip, ← List.map_prod_left_eq_zip]
  exact hperm.map _

/-! ## What becomes of a page -/

theorem two_le_length_pad (n : Nat) : 2 ≤ (pad n).length := by
  rw [pad, List.length_append, List.length_replicate]
  omega

/-- The last name of a numbered path is the old one with the number in front. -/
theorem leaf_numbered {new : Text} (h : Renumbers path new) (n : Nat) :
    Path.leaf (numbered n path) = pad n ++ '-' :: Path.leaf path := by
  obtain ⟨stem, name, -, hstem, hname, -, rfl, -⟩ := h
  have hnum := isName_numbered hname n
  simp only [numbered, splitLast_append hstem hname.slash, List.append_assoc]
  rw [Path.leaf_append hstem hnum.ne_nil hnum.slash,
    Path.leaf_append hstem hname.ne_nil hname.slash]

/-- What becomes of the page `d`. -/
structure RenamedAsListed (documents : List Document) (d d' : Document) : Prop where
  path : d'.path = d.path
  content : d'.content = d.content
  renamed_iff : d'.outputPath ≠ d.outputPath ↔
    isNumbered (Path.leaf d.path) = false ∧ ∃ r ∈ documents, Lists r d
  /-- The first readme that lists the page has the number for its new name. -/
  number : d'.outputPath ≠ d.outputPath → ∃ r n, IsFirst documents r d ∧
    IsNumber (Path.folder r.path) d.path (entries r.updated) n ∧
    d'.outputPath = numbered n d.path ∧ Path.folder d'.outputPath = Path.folder d.path ∧
    Path.leaf d'.outputPath = pad n ++ '-' :: Path.leaf d.path ∧ 2 ≤ (pad n).length

theorem renamedAsListed_renumber (hpaths : (documents.map Document.path).Nodup)
    (hd : d ∈ documents) (hout : d.outputPath = d.path) :
    RenamedAsListed documents d (renumber (renames documents) d) := by
  by_cases hlisted : isNumbered (Path.leaf d.path) = false ∧ ∃ r ∈ documents, Lists r d
  · obtain ⟨hnumber, r, hr, hlists⟩ := hlisted
    obtain ⟨q, hfirst⟩ := exists_isFirst hpaths hr hlists
    obtain ⟨n, hn, hget⟩ := hfirst.get?_renames hpaths hd hnumber
    have hren := renumbers_of_get?_renames hget
    have hnew : (renumber (renames documents) d).outputPath = numbered n d.path := by
      simp [renumber, hget]
    have hne : (renumber (renames documents) d).outputPath ≠ d.outputPath := by
      rw [hnew, hout]
      exact hren.ne
    refine ⟨rfl, rfl, iff_of_true hne ⟨hnumber, r, hr, hlists⟩, fun _ => ?_⟩
    refine ⟨q, n, hfirst, hn, hnew, ?_, ?_, two_le_length_pad n⟩
    · rw [hnew, hren.folder_eq]
    · rw [hnew, leaf_numbered hren]
  · have hget : (renames documents).get? d.path = none := by
      rw [get?_renames_eq_none_iff hd]
      intro r hr hlists
      by_contra hnumber
      exact hlisted ⟨by simpa using hnumber, r, hr, hlists⟩
    have hkeep : (renumber (renames documents) d).outputPath = d.outputPath := by
      simp [renumber, hget]
    exact ⟨rfl, rfl, iff_of_false (not_not.2 hkeep) hlisted, fun hne => absurd hkeep hne⟩

/-- **Pages are renamed as the readmes list them**, in whatever order the pages come. -/
theorem number_renames_as_listed (hpaths : (documents.map Document.path).Nodup)
    (hout : ∀ d ∈ documents, d.outputPath = d.path) :
    List.Forall₂ (RenamedAsListed documents) documents (number documents) ∧
    ∀ documents' : List Document, documents'.Perm documents →
      (documents'.zip (number documents')).Perm (documents.zip (number documents)) := by
  refine ⟨?_, fun documents' hperm => zip_number_perm hpaths hperm⟩
  rw [number_eq_map hpaths, List.forall₂_map_right_iff, List.forall₂_same]
  exact fun d hd => renamedAsListed_renumber hpaths hd (hout d hd)

/-- A site with two readmes. The upper one lists a page several times, in two spellings, and lists a
page of the lower one. -/
def manualSite : List Document :=
  [pageOf "03-done.md" "# Done\n",
    pageOf "README.md"
      "- [A](a.md)\n- [B](guide/b.md)\n- [A](./a.md)\n- [A](a.md)\n- [A](./a.md)\n",
    pageOf "a.md" "# A\n",
    pageOf "guide/README.md" "- [Done](../03-done.md)\n- [B](b.md)\n",
    pageOf "guide/b.md" "# B\n"]

theorem manualSite_renamed :
    (manualSite.map Document.path).Nodup ∧ (∀ d ∈ manualSite, d.outputPath = d.path) ∧
      List.Forall₂ (RenamedAsListed manualSite) manualSite (number manualSite) ∧
      ∀ documents' : List Document, documents'.Perm manualSite →
        (documents'.zip (number documents')).Perm (manualSite.zip (number manualSite)) := by
  have hpaths : (manualSite.map Document.path).Nodup := by decide +kernel
  have hout : ∀ d ∈ manualSite, d.outputPath = d.path := by decide +kernel
  exact ⟨hpaths, hout, number_renames_as_listed hpaths hout⟩

example : (number manualSite).map (fun d => String.ofList d.outputPath) =
    ["03-done.md", "README.md", "04-a.md", "guide/README.md", "guide/02-b.md"] := by
  decide +kernel

end WikiTidy.Numbering
