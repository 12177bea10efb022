import WikiTidy.Proofs.Site.InPlace
import WikiTidy.Proofs.Text.Utf8

/-!
# A dry run foresees the run in place

**Theorem (`dryRun_foresees`).** Let no two pages go to one path and no renamed page to a place
where something is. If a run in place returns, then a dry run returns the same summary. The places
that are new or hold other bytes are those of the paths that it reports as changed, the places where
nothing is any more are the old ones of renamed pages, and everything else is as it was.

Texts are compared before the run and bytes after it. A page whose text changed gets other bytes,
because bytes that stayed the same would be read as the same text (`Utf8.decode_encode`); a page
whose text is the same is not written at all.

No folder is made: a renamed page stays in its folder (`dropLast_newPlace`), so everything above the
places of the run is a folder already (`folder_above`).
-/

namespace WikiTidy.Site

open InPlace
open Step (performAll)

variable {t t' : Tree} {j : Job} {host : Host} {s : Summary} {files : List Text} {d : Document}
  {p q : Place}

namespace InPlace

/-! ## The places of a run in place -/

theorem isChanged_of_outputPath_ne (h : d.outputPath ≠ d.path) : d.isChanged = true := by
  by_contra hsame
  exact h (eq_of_not_isChanged (Bool.eq_false_iff.2 hsame)).2

theorem write_mem_writing (hplace : j.output = j.input) {documents : List Document}
    (hd : d ∈ documents) (hchanged : d.isChanged = true) :
    .write (newPlace j d) d.updated ∈ documents.flatMap j.writing := by
  refine List.mem_flatMap.2 ⟨d, hd, ?_⟩
  rw [writing_eq hplace, if_pos hchanged]
  exact List.mem_cons_self

theorem remove_mem_writing (hplace : j.output = j.input) {documents : List Document}
    (hd : d ∈ documents) (hpath : d.outputPath ≠ d.path) :
    .remove (oldPlace j d) ∈ documents.flatMap j.writing := by
  refine List.mem_flatMap.2 ⟨d, hd, ?_⟩
  rw [writing_eq hplace, if_pos (isChanged_of_outputPath_ne hpath), if_neg hpath]
  simp

/-- The new places of all pages that changed and the old places of those that were renamed. -/
theorem mem_places_iff (hplace : j.output = j.input) {documents : List Document} :
    p ∈ (documents.flatMap j.writing).map Step.place ↔
      (∃ d ∈ documents, d.isChanged = true ∧ p = newPlace j d) ∨
        ∃ d ∈ documents, d.outputPath ≠ d.path ∧ p = oldPlace j d := by
  constructor
  · intro hp
    obtain ⟨step, hstep, rfl⟩ := List.mem_map.1 hp
    obtain ⟨d, hd, hmem⟩ := List.mem_flatMap.1 hstep
    rw [writing_eq hplace] at hmem
    split at hmem
    · next hchanged =>
      rcases List.mem_cons.1 hmem with rfl | hmem
      · exact Or.inl ⟨d, hd, hchanged, rfl⟩
      · split at hmem
        · cases hmem
        · next hpath =>
          obtain rfl := List.mem_singleton.1 hmem
          exact Or.inr ⟨d, hd, hpath, rfl⟩
    · cases hmem
  · rintro (⟨d, hd, hchanged, rfl⟩ | ⟨d, hd, hpath, rfl⟩)
    · exact List.mem_map.2 ⟨_, write_mem_writing hplace hd hchanged, rfl⟩
    · exact List.mem_map.2 ⟨_, remove_mem_writing hplace hd hpath, rfl⟩

/-- **A page stays in its folder.** -/
theorem dropLast_newPlace (ht : t.IsPlain) (hinput : j.input.IsClean)
    (hreads : j.Reads host.accepts t files s) (hd : d ∈ s.documents) : (newPlace j d).dropLast = (oldPlace j d).dropLast := by
  obtain ⟨path, hpath, hfrom⟩ := exists_of_forall₂ (hreads.pageFrom ht hinput) hd
  obtain ⟨names, hne, hnames, hpathOf⟩ :=
    ((hreads.found_files ht hinput).2 path (List.mem_filter.1 hpath).1).1
  rw [newPlace, oldPlace, hfrom.path_eq]
  rcases hfrom.outputPath with heq | hnew
  · rw [heq]
  · obtain ⟨names', hne', hnames', heq, hfolder⟩ :=
      exists_names_of_renumbers hne hnames (hpathOf ▸ hnew)
    rw [heq, hpathOf, descend_pathOf hinput hne' hnames', descend_pathOf hinput hne hnames,
      List.dropLast_append_of_ne_nil hne', List.dropLast_append_of_ne_nil hne, hfolder]

/-- **Everything above the places of a run is a folder before it.** -/
theorem folder_above (ht : t.IsPlain) (hinput : j.input.IsClean) (hplace : j.output = j.input)
    (hreads : j.Reads host.accepts t files s)
    (hq : q ∈ (s.documents.flatMap j.writing).map Step.place) (hpq : p <+: q) (hne : q ≠ p) : t.get? p = some .folder := by
  have hold : ∀ d ∈ s.documents, t.get? (oldPlace j d).dropLast = some .folder := by
    intro d hd
    obtain ⟨c, hget, -⟩ := (hreads.isPageOf ht hinput d hd).file
    exact ht.get?_dropLast hget
  have hfolder : t.get? q.dropLast = some .folder := by
    rcases (mem_places_iff hplace).1 hq with ⟨d, hd, -, rfl⟩ | ⟨d, hd, -, rfl⟩
    · rw [dropLast_newPlace ht hinput hreads hd]
      exact hold d hd
    · exact hold d hd
  obtain ⟨r, rfl⟩ := hpq
  have hr : r ≠ [] := by
    rintro rfl
    exact hne (List.append_nil p)
  rw [List.dropLast_append_of_ne_nil hr] at hfolder
  exact ht.folder_of_append hfolder

end InPlace

/-! ## What is different after a run -/

/-- Something is at a place where nothing was, or the file there has other bytes. -/
def IsWritten (t t' : Tree) (p : Place) : Prop :=
  (t.get? p = none ∧ t'.get? p ≠ none) ∨
    ∃ c c', t.get? p = some (.file c) ∧ t'.get? p = some (.file c') ∧ c' ≠ c

/-- Nothing is at a place where something was. -/
def IsGone (t t' : Tree) (p : Place) : Prop := t.get? p ≠ none ∧ t'.get? p = none

/-- Two trees differ as a summary says. -/
structure AsReported (j : Job) (s : Summary) (t t' : Tree) : Prop where
  written : ∀ p, IsWritten t t' p ↔ ∃ path ∈ s.changed, p = Place.descend j.input path
  gone : ∀ p, IsGone t t' p ↔
    ∃ d ∈ s.documents, d.outputPath ≠ d.path ∧ p = Place.descend j.input d.path
  other : ∀ p, ¬IsWritten t t' p → ¬IsGone t t' p → t'.get? p = t.get? p

theorem IsWritten.get?_ne_none (h : IsWritten t t' p) : t'.get? p ≠ none := by
  rcases h with ⟨-, hsome⟩ | ⟨c, c', -, hfile, -⟩
  · exact hsome
  · simp [hfile]

theorem IsWritten.get?_ne (h : IsWritten t t' p) : t'.get? p ≠ t.get? p := by
  rcases h with ⟨hnone, hsome⟩ | ⟨c, c', hget, hfile, hne⟩
  · rwa [hnone]
  · simpa [hget, hfile] using hne

theorem IsGone.get?_ne (h : IsGone t t' p) : t'.get? p ≠ t.get? p :=
  fun hsame => h.1 (hsame.symm.trans h.2)

/-- It is enough to know what is at the places of the run, and that all else stays as it is. -/
theorem AsReported.of_places
    (hwritten : ∀ d ∈ s.documents, d.isChanged = true → IsWritten t t' (newPlace j d))
    (hgone : ∀ d ∈ s.documents, d.outputPath ≠ d.path → IsGone t t' (oldPlace j d))
    (hrest : ∀ p, ¬(∃ d ∈ s.documents, d.isChanged = true ∧ p = newPlace j d) →
      ¬(∃ d ∈ s.documents, d.outputPath ≠ d.path ∧ p = oldPlace j d) → t'.get? p = t.get? p) :
    AsReported j s t t' := by
  have hcases : ∀ p, t'.get? p ≠ t.get? p →
      (∃ d ∈ s.documents, d.isChanged = true ∧ p = newPlace j d) ∨
        ∃ d ∈ s.documents, d.outputPath ≠ d.path ∧ p = oldPlace j d := by
    intro p hne
    by_contra hno
    rw [not_or] at hno
    exact hne (hrest p hno.1 hno.2)
  refine ⟨fun p => ⟨fun h => ?_, ?_⟩, fun p => ⟨fun h => ?_, ?_⟩, fun p hnew hold => ?_⟩
  · rcases hcases p h.get?_ne with ⟨d, hd, hchanged, rfl⟩ | ⟨d, hd, hpath, rfl⟩
    · exact ⟨d.outputPath, Summary.mem_changed_iff.2 ⟨d, hd, hchanged, rfl⟩, rfl⟩
    · exact absurd (hgone d hd hpath).2 h.get?_ne_none
  · rintro ⟨path, hpath, rfl⟩
    obtain ⟨d, hd, hchanged, rfl⟩ := Summary.mem_changed_iff.1 hpath
    exact hwritten d hd hchanged
  · rcases hcases p h.get?_ne with ⟨d, hd, hchanged, rfl⟩ | hold
    · exact absurd h.2 (hwritten d hd hchanged).get?_ne_none
    · exact hold
  · rintro ⟨d, hd, hpath, rfl⟩
    exact hgone d hd hpath
  · by_contra hne
    rcases hcases p hne with ⟨d, hd, hchanged, rfl⟩ | ⟨d, hd, hpath, rfl⟩
    · exact hnew (hwritten d hd hchanged)
    · exact hold (hgone d hd hpath)

section

variable (ht : t.IsPlain) (hinput : j.input.IsClean) (hplace : j.output = j.input)
  (hreads : j.Reads host.accepts t files s)
include ht hinput hplace hreads

theorem isWritten_newPlace
    (hdid : Step.Did t t' (s.documents.flatMap j.writing) (s.documents.flatMap j.writing) none)
    (hfree : d.outputPath ≠ d.path → t.get? (newPlace j d) = none) (hd : d ∈ s.documents)
    (hchanged : d.isChanged = true) : IsWritten t t' (newPlace j d) := by
  have hfile : t'.get? (newPlace j d) = some (.file (Utf8.encode d.updated)) :=
    Tree.content?_eq_some_iff.1 (hdid.file _ (write_mem_writing hplace hd hchanged))
  by_cases hpath : d.outputPath = d.path
  · obtain ⟨c, hget, hcontent⟩ := (hreads.isPageOf ht hinput d hd).file
    refine Or.inr ⟨c, _, ?_, hfile, ?_⟩
    · rwa [newPlace, hpath]
    · -- the bytes of the new text would be read as the new text
      rintro rfl
      rw [Utf8.decode_encode] at hcontent
      simp [Document.isChanged, hcontent, hpath] at hchanged
  · exact Or.inl ⟨hfree hpath, by simp [hfile]⟩

theorem isGone_oldPlace (hplaces : ((s.documents.flatMap j.writing).map Step.place).Nodup)
    (hrun : performAll host.disk t (s.documents.flatMap j.writing) = (t', none))
    (hd : d ∈ s.documents) (hpath : d.outputPath ≠ d.path) : IsGone t t' (oldPlace j d) := by
  obtain ⟨c, hget, -⟩ := (hreads.isPageOf ht hinput d hd).file
  replace hget : t.get? (oldPlace j d) = some (.file c) := hget
  refine ⟨by simp [hget], ?_⟩
  rcases Step.get?_of_remove ht (isClean_of_mem_plan hinput hplace) hplaces hrun
    (remove_mem_writing hplace hd hpath) with hnone | ⟨q, hq, hpq, hne⟩
  · exact hnone
  · -- no place of the run is below a page
    have hfolder := folder_above ht hinput hplace hreads hq hpq hne
    rw [hget] at hfolder
    cases hfolder

theorem get?_of_notMem_places
    (hdid : Step.Did t t' (s.documents.flatMap j.writing) (s.documents.flatMap j.writing) none)
    (hp : p ∉ (s.documents.flatMap j.writing).map Step.place) : t'.get? p = t.get? p := by
  rcases hdid.rest p (by simpa using hp) with hsame | ⟨hnone, -, q, hq, hpq⟩
  · exact hsame
  · have hfolder : t.get? p = some .folder := by
      refine folder_above ht hinput hplace hreads hq hpq ?_
      rintro rfl
      exact hp hq
    rw [hnone] at hfolder
    cases hfolder

end

/-- **A dry run foresees the run in place.** -/
theorem dryRun_foresees (ht : t.IsPlain) (hinput : j.input.IsClean) (hplace : j.output = j.input)
    (hwet : j.dryRun = false) (hresult : (j.run host t).result = some (.ok s))
    (hpaths : (s.documents.map Document.outputPath).Nodup)
    (hfree : ∀ d ∈ s.documents, d.outputPath ≠ d.path →
      t.get? (Place.descend j.input d.outputPath) = none) :
    ({ j with dryRun := true }.run host t).result = some (.ok s) ∧
      AsReported j s t (j.run host t).tree := by
  obtain ⟨files, hreads, hrun⟩ := Job.reads_of_result hresult
  have hdry : { j with dryRun := true }.Reads host.accepts t files s :=
    ⟨hreads.found, hreads.documents, hreads.copied⟩
  have hcan : CanMove t j s.documents :=
    { isPageOf := hreads.isPageOf ht hinput
      path := hreads.map_path ht hinput ▸ (hreads.found_files ht hinput).1.filter _
      outputPath := hpaths
      free := fun d hd hpath c => by simp [newPlace, hfree d hd hpath] }
  have hplan : j.plan s.copied s.documents = s.documents.flatMap j.writing := by
    simp [Job.plan, hwet, Job.inPlace, hplace]
  rw [hplan] at hrun
  have hplaces := hcan.nodup_places hinput hplace
  obtain ⟨done, cut, hdid, hall, -⟩ := Step.exists_done ht (isClean_of_mem_plan hinput hplace)
    hplaces (fun step hstep _ hcopy => absurd hcopy (not_copiesFrom hplace hstep)) hrun
  obtain ⟨rfl, rfl⟩ := hall rfl
  refine ⟨hdry.run.2.trans rfl, .of_places ?_ ?_ ?_⟩
  · intro d hd hchanged
    exact isWritten_newPlace ht hinput hplace hreads hdid (hfree d hd) hd hchanged
  · intro d hd hpath
    exact isGone_oldPlace ht hinput hplace hreads hplaces hrun hd hpath
  · intro p hnew hold
    refine get?_of_notMem_places ht hinput hplace hreads hdid ?_
    rw [mem_places_iff hplace, not_or]
    exact ⟨hnew, hold⟩

theorem notes_asReported :
    ({ numberNotes with dryRun := true }.run plainHost notes).result = some (.ok numberedNotes) ∧
      AsReported numberNotes numberedNotes notes (numberNotes.run plainHost notes).tree := by
  have hfree : ∀ d ∈ numberedNotes.documents, d.outputPath ≠ d.path →
      notes.get? (Place.descend numberNotes.input d.outputPath) = none := by decide +kernel
  exact dryRun_foresees (by decide +kernel) (by decide +kernel) rfl rfl (by decide +kernel)
    (by decide +kernel) hfree

end WikiTidy.Site
