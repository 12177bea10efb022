import WikiTidy.Proofs.Site.Pages
import WikiTidy.Proofs.Site.Steps
import WikiTidy.Proofs.Text.Utf8

/-!
# Runs into another folder

A run into another folder copies all files that are no pages and then writes all pages, over
whatever is in that folder already.

**Theorem (`run_exports`).** If neither folder is within the other and no two pages go to one path,
then a run that returns has put each page and each copied file where it goes, has touched no other
file, and has left the input folder as it was.

A copied file never meets a page, renamed or not: only paths of pages end like a page
(`IsPageOf.isPage`). So all steps are about different places below the output folder, and what is
copied is read from the input folder, which no step is about.

**Theorem (`run_recodes_unreported`).** A page that is not reported as changed is written as it was
read: as text. Its file has the same bytes as before exactly if they were UTF-8; what was not is
read as replacement characters, and these are written (`draft_bytes_change`).
-/

namespace WikiTidy.Site

open Step (performAll)

variable {t t' : Tree} {j : Job} {host : Host} {s : Summary} {files : List Text} {p : Place}
  {step : Step}

namespace Export

/-- Neither folder is within the other. -/
structure Apart (j : Job) : Prop where
  output : ¬j.input <+: j.output
  input : ¬j.output <+: j.input

theorem Apart.not_prefix (h : Apart j) (hinput : j.input <+: p) : ¬j.output <+: p := by
  intro houtput
  rcases List.prefix_or_prefix_of_prefix hinput houtput with hpre | hpre
  · exact h.output hpre
  · exact h.input hpre

/-- The new paths of all files of a run. -/
def outputs (s : Summary) : List Text := s.copied ++ s.documents.map Document.outputPath

theorem plan_eq (h : Apart j) (hwet : j.dryRun = false) :
    j.plan s.copied s.documents =
      s.copied.map j.copying ++
        s.documents.map fun d => .write (Place.descend j.output d.outputPath) d.updated := by
  have hinPlace : j.inPlace = false := by
    rw [Job.inPlace, beq_eq_false_iff_ne]
    exact fun heq => h.output (heq ▸ List.prefix_refl _)
  have hwriting : j.writing = fun d => [.write (Place.descend j.output d.outputPath) d.updated] := by
    funext d
    simp [Job.writing, hinPlace]
  simp [Job.plan, hwet, hinPlace, hwriting, List.map_eq_flatMap]

theorem map_place_plan (h : Apart j) (hwet : j.dryRun = false) :
    (j.plan s.copied s.documents).map Step.place =
      (outputs s).map (Place.descend j.output) := by
  rw [plan_eq h hwet, outputs]
  simp [Function.comp_def, Step.place, Job.copying]

theorem isFilePath_outputs (ht : t.IsPlain) (hinput : j.input.IsClean)
    (hreads : j.Reads host.accepts t files s) : ∀ path ∈ outputs s, IsFilePath path := by
  intro path hpath
  rcases List.mem_append.1 hpath with hcopied | hpage
  · rw [hreads.copied] at hcopied
    exact ((hreads.found_files ht hinput).2 path (List.mem_filter.1 hcopied).1).1
  · obtain ⟨d, hd, rfl⟩ := List.mem_map.1 hpage
    exact (hreads.isPageOf ht hinput d hd).outputPath

/-- **A copied file never meets a page.** -/
theorem nodup_outputs (ht : t.IsPlain) (hinput : j.input.IsClean)
    (hreads : j.Reads host.accepts t files s)
    (hpaths : (s.documents.map Document.outputPath).Nodup) : (outputs s).Nodup := by
  have hcopied : s.copied.Nodup :=
    hreads.copied ▸ (hreads.found_files ht hinput).1.filter _
  refine hcopied.append hpaths ?_
  rw [List.disjoint_left]
  intro path hpath hpage
  obtain ⟨d, hd, rfl⟩ := List.mem_map.1 hpage
  rw [hreads.copied, List.mem_filter, (hreads.isPageOf ht hinput d hd).isPage] at hpath
  exact absurd hpath.2 (by decide)

theorem did_plan (ht : t.IsPlain) (hinput : j.input.IsClean) (houtput : j.output.IsClean)
    (hwet : j.dryRun = false) (hapart : Apart j) (hreads : j.Reads host.accepts t files s)
    (hpaths : (s.documents.map Document.outputPath).Nodup)
    (hrun : performAll host.disk t (j.plan s.copied s.documents) = (t', none)) :
    Step.Did t t' (j.plan s.copied s.documents) (j.plan s.copied s.documents) none := by
  have hfile := isFilePath_outputs ht hinput hreads
  have hplaces : ((j.plan s.copied s.documents).map Step.place).Nodup := by
    rw [map_place_plan hapart hwet]
    refine (nodup_outputs ht hinput hreads hpaths).map_on ?_
    exact fun path hpath path' hpath' heq =>
      (hfile path hpath).descend_inj houtput (hfile path' hpath') heq
  have hstep : ∀ step ∈ j.plan s.copied s.documents,
      (∃ path ∈ s.copied, step = j.copying path) ∨
        ∃ d ∈ s.documents, step = .write (Place.descend j.output d.outputPath) d.updated := by
    intro step hstep
    rw [plan_eq hapart hwet, List.mem_append] at hstep
    simpa [eq_comm] using hstep
  have hcopied : ∀ path ∈ s.copied, IsFilePath path :=
    fun path hpath => hfile path (List.mem_append_left _ hpath)
  have hclean : ∀ step ∈ j.plan s.copied s.documents, step.IsClean := by
    intro step hmem
    rcases hstep step hmem with ⟨path, hpath, rfl⟩ | ⟨d, hd, rfl⟩
    · exact ⟨Place.isClean_descend hinput path, Place.isClean_descend houtput path⟩
    · exact Place.isClean_descend houtput d.outputPath
  have hsource : ∀ step ∈ j.plan s.copied s.documents, ∀ p, step.CopiesFrom p →
      p ∉ (j.plan s.copied s.documents).map Step.place := by
    rintro step hmem p ⟨target, rfl⟩ hp
    rw [map_place_plan hapart hwet] at hp
    obtain ⟨path, hpath, rfl⟩ := List.mem_map.1 hp
    rcases hstep _ hmem with ⟨source, hsource, heq⟩ | ⟨d, hd, heq⟩
    · obtain ⟨heq, -⟩ := Step.copy.inj heq
      exact hapart.not_prefix (heq ▸ (hcopied source hsource).prefix_descend hinput)
        ((hfile path hpath).prefix_descend houtput)
    · cases heq
  obtain ⟨done, cut, hdid, hall, -⟩ := Step.exists_done ht hclean hplaces hsource hrun
  obtain ⟨rfl, rfl⟩ := hall rfl
  exact hdid

end Export

open Export

/-- What a run into another folder does to the tree. -/
structure Exports (j : Job) (s : Summary) (t t' : Tree) : Prop where
  page : ∀ d ∈ s.documents,
    t'.get? (Place.descend j.output d.outputPath) = some (.file (Utf8.encode d.updated))
  copied : ∀ path ∈ s.copied, ∃ c, t.get? (Place.descend j.input path) = some (.file c) ∧
    t'.get? (Place.descend j.output path) = some (.file c)
  /-- Every other file is as it was, and no other file is new. -/
  other : ∀ p, (∀ d ∈ s.documents, p ≠ Place.descend j.output d.outputPath) →
    (∀ path ∈ s.copied, p ≠ Place.descend j.output path) →
    ∀ c, t'.get? p = some (.file c) ↔ t.get? p = some (.file c)
  input : ∀ p, j.input <+: p → t'.get? p = t.get? p

/-- **What a run into another folder does** when it returns. -/
theorem run_exports (ht : t.IsPlain) (hinput : j.input.IsClean) (houtput : j.output.IsClean)
    (hwet : j.dryRun = false) (hin : ¬j.input <+: j.output) (hout : ¬j.output <+: j.input)
    (hresult : (j.run host t).result = some (.ok s))
    (hpaths : (s.documents.map Document.outputPath).Nodup) : Exports j s t (j.run host t).tree := by
  have hapart : Apart j := ⟨hin, hout⟩
  obtain ⟨files, hreads, hrun⟩ := Job.reads_of_result hresult
  have hdid := did_plan ht hinput houtput hwet hapart hreads hpaths hrun
  have hfile := isFilePath_outputs ht hinput hreads
  have hplan := plan_eq (s := s) hapart hwet
  refine ⟨?_, ?_, ?_, ?_⟩
  · intro d hd
    have hstep : .write (Place.descend j.output d.outputPath) d.updated ∈
        j.plan s.copied s.documents := by
      rw [hplan]
      exact List.mem_append_right _ (List.mem_map.2 ⟨d, hd, rfl⟩)
    exact Tree.content?_eq_some_iff.1 (hdid.file _ hstep)
  · intro path hpath
    have hstep : j.copying path ∈ j.plan s.copied s.documents := by
      rw [hplan]
      exact List.mem_append_left _ (List.mem_map_of_mem hpath)
    rw [hreads.copied, List.mem_filter] at hpath
    obtain ⟨-, c, hget⟩ := (hreads.found_files ht hinput).2 path hpath.1
    refine ⟨c, hget, Tree.content?_eq_some_iff.1 ((hdid.file _ hstep).trans ?_)⟩
    exact Tree.content?_eq_some_iff.2 hget
  · intro p hpage hcopied c
    have hmem : p ∉ (j.plan s.copied s.documents).map Step.place := by
      rw [map_place_plan hapart hwet]
      intro hmem
      obtain ⟨path, hpath, rfl⟩ := List.mem_map.1 hmem
      rcases List.mem_append.1 hpath with hpath | hpath
      · exact hcopied path hpath rfl
      · obtain ⟨d, hd, rfl⟩ := List.mem_map.1 hpath
        exact hpage d hd rfl
    rw [← Tree.content?_eq_some_iff, ← Tree.content?_eq_some_iff,
      (hdid.rest p (by simpa using hmem)).content?]
  · intro p hp
    have hbelow : ∀ q ∈ (j.plan s.copied s.documents).map Step.place, ¬p <+: q := by
      rw [map_place_plan hapart hwet]
      intro q hq hpre
      obtain ⟨path, hpath, rfl⟩ := List.mem_map.1 hq
      exact hapart.not_prefix (hp.trans hpre) ((hfile path hpath).prefix_descend houtput)
    have hrest := hdid.rest p fun hmem => hbelow p (by simpa using hmem) (List.prefix_refl p)
    exact hrest.get?_eq hbelow

/-- A folder with a page, a picture and a hidden file, and an older export of it. -/
def guide : Tree :=
  ⟨[(["in".toList], .folder),
    (["in".toList, ".draft".toList], .file [1]),
    (["in".toList, "a.md".toList], .file (Utf8.encode "Menu\n# A\n".toList)),
    (["in".toList, "b.png".toList], .file [137, 80]),
    (["out".toList], .folder),
    (["out".toList, "a.md".toList], .file []),
    (["out".toList, "c.md".toList], .file [67])]⟩

/-- The folder is exported. -/
def exportGuide : Job :=
  { input := ["in".toList], output := ["out".toList], dryRun := false, ordinal := false
    exclude := [], anchors := [] }

/-- What is written and what is copied. -/
def exportedGuide : Summary :=
  { documents :=
      [{ path := "a.md".toList, outputPath := "a.md".toList
         content := "Menu\n# A\n".toList, updated := "# A\n".toList }]
    copied := ["b.png".toList] }

theorem guide_exports :
    Exports exportGuide exportedGuide guide (exportGuide.run plainHost guide).tree :=
  run_exports (by decide +kernel) (by decide +kernel) (by decide +kernel) rfl (by decide +kernel)
    (by decide +kernel) (by decide +kernel) (by decide +kernel)

/-! ## Pages that are not reported -/

/-- **A page that is not reported keeps its text**, and it keeps its bytes exactly if they are
UTF-8. -/
theorem run_recodes_unreported (ht : t.IsPlain) (hinput : j.input.IsClean)
    (houtput : j.output.IsClean) (hwet : j.dryRun = false) (hin : ¬j.input <+: j.output)
    (hout : ¬j.output <+: j.input) (hresult : (j.run host t).result = some (.ok s))
    (hpaths : (s.documents.map Document.outputPath).Nodup) :
    ∀ d ∈ s.documents, d.outputPath ∉ s.changed →
      ∃ c c', t.get? (Place.descend j.input d.path) = some (.file c) ∧
        (j.run host t).tree.get? (Place.descend j.output d.outputPath) = some (.file c') ∧
        Utf8.decode c' = Utf8.decode c ∧ c' = Utf8.encode (Utf8.decode c) ∧
        (c' = c ↔ Utf8.IsUtf8 c) := by
  intro d hd hreport
  obtain ⟨files, hreads, hrun⟩ := Job.reads_of_result hresult
  have hdid := did_plan ht hinput houtput hwet ⟨hin, hout⟩ hreads hpaths hrun
  obtain ⟨c, hget, hcontent⟩ := (hreads.isPageOf ht hinput d hd).file
  have hsame : d.isChanged = false := by
    rw [Bool.eq_false_iff]
    exact fun hchanged => hreport (Summary.mem_changed_iff.2 ⟨d, hd, hchanged, rfl⟩)
  obtain ⟨hupdated, -⟩ := eq_of_not_isChanged hsame
  have hstep : .write (Place.descend j.output d.outputPath) d.updated ∈
      j.plan s.copied s.documents := by
    rw [plan_eq ⟨hin, hout⟩ hwet]
    exact List.mem_append_right _ (List.mem_map.2 ⟨d, hd, rfl⟩)
  have hfile := hdid.file _ hstep
  rw [Step.leaves, hupdated, hcontent] at hfile
  exact ⟨c, _, hget, Tree.content?_eq_some_iff.1 hfile, Utf8.decode_encode _, rfl,
    Utf8.encode_decode_eq_iff⟩

/-- A folder with two pages that stay as they are. One holds a byte that is no UTF-8. -/
def drafts : Tree :=
  ⟨[(["in".toList], .folder),
    (["in".toList, "a.md".toList], .file (Utf8.encode "# \u00e9\n".toList)),
    (["in".toList, "b.md".toList], .file [35, 32, 233, 10])]⟩

/-- What is written: both pages, and neither is reported. -/
def exportedDrafts : Summary :=
  { documents :=
      [{ path := "a.md".toList, outputPath := "a.md".toList
         content := "# \u00e9\n".toList, updated := "# \u00e9\n".toList },
       { path := "b.md".toList, outputPath := "b.md".toList
         content := "# \ufffd\n".toList, updated := "# \ufffd\n".toList }]
    copied := [] }

theorem drafts_recoded :
    drafts.IsPlain ∧ (exportGuide.run plainHost drafts).result = some (.ok exportedDrafts) ∧
      ∀ d ∈ exportedDrafts.documents, d.outputPath ∉ exportedDrafts.changed →
        ∃ c c', drafts.get? (Place.descend exportGuide.input d.path) = some (.file c) ∧
          (exportGuide.run plainHost drafts).tree.get?
            (Place.descend exportGuide.output d.outputPath) = some (.file c') ∧
          Utf8.decode c' = Utf8.decode c ∧ c' = Utf8.encode (Utf8.decode c) ∧
          (c' = c ↔ Utf8.IsUtf8 c) := by
  have hplain : drafts.IsPlain := by decide +kernel
  have hresult : (exportGuide.run plainHost drafts).result = some (.ok exportedDrafts) := by
    decide +kernel
  exact ⟨hplain, hresult, run_recodes_unreported hplain (by decide +kernel) (by decide +kernel) rfl
    (by decide +kernel) (by decide +kernel) hresult (by decide +kernel)⟩

/-- **A page that is not reported can get other bytes.** -/
theorem draft_bytes_change :
    drafts.IsPlain ∧ (exportGuide.run plainHost drafts).result = some (.ok exportedDrafts) ∧
      (exportedDrafts.documents.map Document.outputPath).Nodup ∧
      (∃ d ∈ exportedDrafts.documents, d.outputPath ∉ exportedDrafts.changed ∧
        (exportGuide.run plainHost drafts).tree.get?
            (Place.descend exportGuide.output d.outputPath) ≠
          drafts.get? (Place.descend exportGuide.input d.path)) := by
  decide +kernel

end WikiTidy.Site
