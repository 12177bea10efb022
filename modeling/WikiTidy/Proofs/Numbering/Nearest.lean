import WikiTidy.Proofs.Numbering.Priority
import WikiTidy.Proofs.Site.FilePath

/-!
# The nearest readme

Readmes are asked by the depth of their own folders, not by how far they are from a page. Of the
readmes in the folder of a page and the folders above it the deepest one is asked first, and it is
the nearest one too (`IsNearest`). A readme in some other folder may lie deeper, and its index can
lead to the page through `..`.

**Theorem (`nearest_numbers_iff`).** The nearest readme that lists a page numbers it exactly when it
comes before all readmes of other folders that list the page. If it does not, the first of those
numbers the page.

In `branchSite` the page `p.md` is listed by the readme of its own folder and by that of the folder
`sub`, which is deeper.
-/

namespace WikiTidy.Numbering

open Text Site

variable {documents : List Document} {d q r : Document} {path path' : Text}

/-! ## Readmes above a page -/

/-- The readme is in the folder of the page or in a folder above it. -/
def IsOver (readme d : Document) : Prop := folders readme.path <+: folders d.path

/-- The readme is the deepest of those above the page that list it. -/
structure IsNearest (documents : List Document) (r d : Document) : Prop where
  mem : r ∈ documents
  lists : Lists r d
  isOver : IsOver r d
  deepest : ∀ q ∈ documents, Lists q d → IsOver q d →
    (folders q.path).length ≤ (folders r.path).length

instance (r d : Document) : Decidable (IsOver r d) :=
  inferInstanceAs (Decidable (folders r.path <+: folders d.path))

theorem eq_of_folders_eq (hpath : IsFilePath path) (hpath' : IsFilePath path')
    (hfolders : folders path = folders path') (hleaf : Path.leaf path = Path.leaf path') :
    path = path' := by
  have hparts : ∀ {path}, IsFilePath path →
      path = (folders path).flatMap (· ++ ['/']) ++ Path.leaf path := by
    rintro _ ⟨names, hne, hclean, rfl⟩
    obtain ⟨init, last, rfl⟩ := (List.eq_nil_or_concat' names).resolve_left hne
    have hlast : Path.IsName last := hclean last (by simp)
    have hsplit := split_join hne fun name h => (hclean name h).slash
    rw [folders, pathOf, hsplit, List.dropLast_concat, join_concat,
      Path.leaf_append (isStem_flatMap init) hlast.ne_nil hlast.slash]
  rw [hparts hpath, hparts hpath', hfolders, hleaf]

theorem IsNearest.precedes (hpaths : (documents.map Document.path).Nodup)
    (hfiles : ∀ d ∈ documents, IsFilePath d.path) (hr : IsNearest documents r d)
    (hq : q ∈ documents) (hlists : Lists q d) (hover : IsOver q d) (hne : q ≠ r) :
    Precedes r q := by
  rcases (hr.deepest q hq hlists hover).lt_or_eq with hlt | heq
  · exact Or.inl hlt
  · -- Two folders of one depth above a page are one folder.
    have hfolders : folders q.path = folders r.path :=
      (List.prefix_of_prefix_length_le hover hr.isOver heq.le).eq_of_length heq
    have hpath := eq_of_folders_eq (hfiles q hq) (hfiles r hr.mem) hfolders
      (hlists.1.trans hr.lists.1.symm)
    exact absurd (List.inj_on_of_nodup_map hpaths hq hr.mem hpath) hne

theorem IsFirst.unique {q : Document} (hr : IsFirst documents r d) (hq : IsFirst documents q d) :
    q = r := by
  by_contra hne
  exact (hr.precedes q hq.mem hq.lists hne).asymm (hq.precedes r hr.mem hr.lists (Ne.symm hne))

/-- **The nearest readme is the first one** exactly when it comes before all readmes that are not
above the page. -/
theorem IsNearest.isFirst_iff (hpaths : (documents.map Document.path).Nodup)
    (hfiles : ∀ d ∈ documents, IsFilePath d.path) (hr : IsNearest documents r d) :
    IsFirst documents r d ↔
      ∀ o ∈ documents, Lists o d → ¬IsOver o d → Precedes r o := by
  constructor
  · intro hfirst o ho hlists hover
    refine hfirst.precedes o ho hlists ?_
    rintro rfl
    exact hover hr.isOver
  · intro hothers
    refine ⟨hr.mem, hr.lists, fun q hq hlists hne => ?_⟩
    by_cases hover : IsOver q d
    · exact hr.precedes hpaths hfiles hq hlists hover hne
    · exact hothers q hq hlists hover

theorem exists_isNearest (hpaths : (documents.map Document.path).Nodup) (hr : r ∈ documents)
    (hlists : Lists r d) (hover : IsOver r d) : ∃ q, IsNearest documents q d := by
  have hpaths' : ((documents.filter fun q => IsOver q d).map Document.path).Nodup :=
    hpaths.sublist (List.filter_sublist.map Document.path)
  obtain ⟨q, hfirst⟩ := exists_isFirst hpaths' (List.mem_filter.2 ⟨hr, by simpa⟩) hlists
  obtain ⟨hq, hqover⟩ := List.mem_filter.1 hfirst.mem
  refine ⟨q, hq, hfirst.lists, by simpa using hqover, fun p hp hlistsp hoverp => ?_⟩
  by_cases hpq : p = q
  · rw [hpq]
  · rcases hfirst.precedes p (List.mem_filter.2 ⟨hp, by simpa⟩) hlistsp hpq with hlt | ⟨heq, -⟩
    · exact hlt.le
    · exact heq.ge

/-- **Which readme numbers a page** that readmes above it list. It is the nearest one exactly when
that comes before all others that list the page; else it is one that is not above the page. -/
theorem nearest_numbers_iff (hpaths : (documents.map Document.path).Nodup)
    (hfiles : ∀ d ∈ documents, IsFilePath d.path) (hd : d ∈ documents)
    (hnumber : isNumbered (Path.leaf d.path) = false)
    (hlisted : ∃ r ∈ documents, Lists r d ∧ IsOver r d) :
    ∃ r, IsNearest documents r d ∧ ∃ q n d', IsFirst documents q d ∧
      IsNumber (Path.folder q.path) d.path (entries q.updated) n ∧
      (d, d') ∈ documents.zip (number documents) ∧ d'.outputPath = numbered n d.path ∧
      (q = r ↔ ∀ o ∈ documents, Lists o d → ¬IsOver o d → Precedes r o) ∧
      (q ≠ r → ¬IsOver q d ∧ Precedes q r) := by
  obtain ⟨p, hp, hlistsp, hoverp⟩ := hlisted
  obtain ⟨r, hr⟩ := exists_isNearest hpaths hp hlistsp hoverp
  obtain ⟨q, hfirst⟩ := exists_isFirst hpaths hr.mem hr.lists
  obtain ⟨n, hn, hget⟩ := hfirst.get?_renames hpaths hd hnumber
  refine ⟨r, hr, q, n, _, hfirst, hn, mem_zip_number_of_mem hpaths hd, by simp [renumber, hget],
    ?_, ?_⟩
  · rw [← hr.isFirst_iff hpaths hfiles]
    constructor
    · rintro rfl
      exact hfirst
    · exact fun hfirst' => hfirst'.unique hfirst
  · intro hne
    have hqr : Precedes q r := hfirst.precedes r hr.mem hr.lists (Ne.symm hne)
    refine ⟨fun hover => ?_, hqr⟩
    exact (hr.precedes hpaths hfiles hfirst.mem hfirst.lists hover hne).asymm hqr

theorem manualSite_nearest :
    (manualSite.map Document.path).Nodup ∧ (∀ d ∈ manualSite, IsFilePath d.path) ∧
      ∃ d ∈ manualSite, d.path = "guide/b.md".toList ∧
        isNumbered (Path.leaf d.path) = false ∧
        (∃ r ∈ manualSite, Lists r d ∧ IsOver r d) ∧
        ∃ r, IsNearest manualSite r d ∧ ∃ q n d', IsFirst manualSite q d ∧
          IsNumber (Path.folder q.path) d.path (entries q.updated) n ∧
          (d, d') ∈ manualSite.zip (number manualSite) ∧ d'.outputPath = numbered n d.path ∧
          (q = r ↔ ∀ o ∈ manualSite, Lists o d → ¬IsOver o d → Precedes r o) ∧
          (q ≠ r → ¬IsOver q d ∧ Precedes q r) := by
  have hpaths : (manualSite.map Document.path).Nodup := by decide +kernel
  have hfiles : ∀ d ∈ manualSite, IsFilePath d.path := by decide +kernel
  have hd : pageOf "guide/b.md" "# B\n" ∈ manualSite := by decide +kernel
  have hnumber : isNumbered (Path.leaf (pageOf "guide/b.md" "# B\n").path) = false := by
    decide +kernel
  have hlisted : ∃ r ∈ manualSite, Lists r (pageOf "guide/b.md" "# B\n") ∧
      IsOver r (pageOf "guide/b.md" "# B\n") := by decide +kernel
  exact ⟨hpaths, hfiles, _, hd, rfl, hnumber, hlisted,
    nearest_numbers_iff hpaths hfiles hd hnumber hlisted⟩

/-- A site with a page that the readme of a deeper folder lists, too. -/
def branchSite : List Document :=
  [pageOf "README.md" "- [Intro](intro.md)\n- [P](p.md)\n", pageOf "p.md" "# P\n",
    pageOf "sub/README.md" "- [P](../p.md)\n"]

/-- **The nearest readme does not always number a page.** -/
theorem branchSite_not_nearest :
    (branchSite.map Document.path).Nodup ∧
      (∀ d ∈ branchSite, IsFilePath d.path ∧ d.outputPath = d.path) ∧
      ¬∀ d ∈ branchSite, isNumbered (Path.leaf d.path) = false →
        ∀ r, IsNearest branchSite r d → ∃ n d',
          IsNumber (Path.folder r.path) d.path (entries r.updated) n ∧
          (d, d') ∈ branchSite.zip (number branchSite) ∧ d'.outputPath = numbered n d.path := by
  refine ⟨by decide +kernel, by decide +kernel, fun h => ?_⟩
  have hnearest : IsNearest branchSite
      (pageOf "README.md" "- [Intro](intro.md)\n- [P](p.md)\n") (pageOf "p.md" "# P\n") :=
    ⟨by decide +kernel, by decide +kernel, by decide +kernel, by decide +kernel⟩
  obtain ⟨n, d', hn, hzip, hpath⟩ :=
    h (pageOf "p.md" "# P\n") (by decide +kernel) (by decide +kernel) _ hnearest
  have htwo : number? (Path.folder "README.md".toList) "p.md".toList
      (entries "- [Intro](intro.md)\n- [P](p.md)\n".toList) = some 2 := by decide +kernel
  obtain rfl : 2 = n := Option.some.inj (htwo.symm.trans (number?_eq_some_iff.2 hn))
  have hone : ∀ e ∈ branchSite.zip (number branchSite), e.1.path = "p.md".toList →
      e.2.outputPath = "01-p.md".toList := by decide +kernel
  exact absurd ((hone _ hzip rfl).symm.trans hpath) (by decide +kernel)

end WikiTidy.Numbering
