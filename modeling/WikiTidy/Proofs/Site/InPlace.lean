import WikiTidy.Proofs.Site.Pages
import WikiTidy.Proofs.Site.Steps

/-!
# Runs in place

A run in place writes each page that changed and, if the page was renamed, removes the file it was
read from. It can stop at any step: a folder may stand at a new name, or the disk may fail. A write
that fails after the file was opened leaves there what the disk makes of it, be it the first part of
the new text or nothing; a write that fails before that, and a removal that fails, leave the file
alone.

**Theorem (`run_keeps_pages`).** If no two pages go to one path and no renamed page goes to a file
that is there, then a run that stops anywhere has kept each page: its file is as it was, or its new
text is at its new path. No other file has changed. There is one exception: the page that keeps its
path and whose own write was cut short, as the fault of the run says. Pages are written over, not
beside, so of that page neither text need be left (`notes_cut_short`).

The reason is that all steps of such a run are about different places (`nodup_places`), so that none
of them undoes another one (`Step.exists_done`), and that the file of a page is removed only after
the page was written (`write_of_remove`).
-/

namespace WikiTidy.Site

open Step (performAll)

variable {t t' : Tree} {j : Job} {host : Host} {s : Summary} {d e : Document} {p : Place}
  {step : Step} {documents : List Document} {done : List Step} {cut : Option Step}
  {disk : Nat → Fate}

namespace InPlace

/-! ## The steps for a page -/

/-- Where the file of a page is. -/
def oldPlace (j : Job) (d : Document) : Place := Place.descend j.input d.path

/-- Where a page goes. -/
def newPlace (j : Job) (d : Document) : Place := Place.descend j.input d.outputPath

theorem writing_eq (hplace : j.output = j.input) (d : Document) :
    j.writing d =
      if d.isChanged then
        .write (newPlace j d) d.updated ::
          if d.outputPath = d.path then [] else [.remove (oldPlace j d)]
      else [] := by
  simp only [Job.writing, Job.inPlace, hplace, newPlace, oldPlace]
  by_cases hchanged : d.isChanged <;> by_cases hpath : d.outputPath = d.path <;>
    simp [hchanged, hpath]

theorem mem_writing (hplace : j.output = j.input) (h : step ∈ j.writing d) :
    step = .write (newPlace j d) d.updated ∨
      (step = .remove (oldPlace j d) ∧ d.outputPath ≠ d.path) := by
  rw [writing_eq hplace] at h
  split at h
  · rcases List.mem_cons.1 h with rfl | h
    · exact Or.inl rfl
    · split at h
      · cases h
      · next hpath => exact Or.inr ⟨by simpa using h, hpath⟩
  · cases h

theorem isClean_of_mem_plan (hinput : j.input.IsClean) (hplace : j.output = j.input) :
    ∀ step ∈ documents.flatMap j.writing, step.IsClean := by
  intro step hstep
  obtain ⟨d, hd, hmem⟩ := List.mem_flatMap.1 hstep
  rcases mem_writing hplace hmem with rfl | ⟨rfl, -⟩
  · exact Place.isClean_descend hinput d.outputPath
  · exact Place.isClean_descend hinput d.path

theorem not_copiesFrom (hplace : j.output = j.input) (h : step ∈ documents.flatMap j.writing) :
    ¬step.CopiesFrom p := by
  rintro ⟨target, rfl⟩
  obtain ⟨d, -, hmem⟩ := List.mem_flatMap.1 h
  rcases mem_writing hplace hmem with heq | ⟨heq, -⟩
  · cases heq
  · cases heq

/-- **The file of a page is removed only after the page was written.** -/
theorem write_of_remove (hplace : j.output = j.input) (hdone : done <+: documents.flatMap j.writing)
    (h : .remove p ∈ done) :
    ∃ d ∈ documents, p = oldPlace j d ∧ .write (newPlace j d) d.updated ∈ done := by
  induction documents generalizing done with
  | nil =>
    rw [List.flatMap_nil, List.prefix_nil] at hdone
    subst hdone
    cases h
  | cons d documents ih =>
    rw [List.flatMap_cons] at hdone
    have hhere : .remove p ∈ j.writing d → p = oldPlace j d := by
      intro hmem
      rcases mem_writing hplace hmem with heq | ⟨heq, -⟩
      · cases heq
      · exact Step.remove.inj heq
    have hwrite : .remove p ∈ j.writing d → ∃ rest,
        j.writing d = .write (newPlace j d) d.updated :: rest := by
      intro hmem
      rw [writing_eq hplace] at hmem ⊢
      split at hmem
      · next hchanged => exact ⟨_, if_pos hchanged⟩
      · cases hmem
    rcases List.prefix_or_prefix_of_prefix hdone (List.prefix_append _ _) with hin | ⟨later, rfl⟩
    · -- the run stops within the steps for this page, at its second one at the earliest
      have hmem := hin.subset h
      obtain ⟨rest, hrest⟩ := hwrite hmem
      rw [hrest, List.prefix_cons_iff] at hin
      rcases hin with rfl | ⟨done', rfl, -⟩
      · cases h
      · exact ⟨d, List.mem_cons_self, hhere hmem, List.mem_cons_self⟩
    · rcases List.mem_append.1 h with hmem | hmem
      · obtain ⟨rest, hrest⟩ := hwrite hmem
        exact ⟨d, List.mem_cons_self, hhere hmem, by simp [hrest]⟩
      · obtain ⟨e, he, hp, hmem'⟩ := ih ((List.prefix_append_right_inj _).1 hdone) hmem
        exact ⟨e, List.mem_cons_of_mem _ he, hp, List.mem_append_right _ hmem'⟩

theorem content?_of_did (hplace : j.output = j.input) {steps : List Step}
    (hsteps : steps <+: documents.flatMap j.writing) (hdid : Step.Did t t' steps done cut)
    (hp : ∀ d ∈ documents, p ≠ oldPlace j d ∧ p ≠ newPlace j d) : t'.content? p = t.content? p := by
  refine (hdid.rest p ?_).content?
  intro hmem
  obtain ⟨step, hstep, rfl⟩ := List.mem_map.1 hmem
  obtain ⟨d, hd, hwriting⟩ := List.mem_flatMap.1 ((hdid.first.trans hsteps).subset hstep)
  rcases mem_writing hplace hwriting with rfl | ⟨rfl, -⟩
  · exact (hp d hd).2 rfl
  · exact (hp d hd).1 rfl

/-! ## The places of all steps -/

/-- The pages of a run that can be renamed where they are: they go to different paths, and none goes
to a file that is there unless it keeps its path. -/
structure CanMove (t : Tree) (j : Job) (documents : List Document) : Prop where
  isPageOf : ∀ d ∈ documents, IsPageOf t j.input d
  path : (documents.map Document.path).Nodup
  outputPath : (documents.map Document.outputPath).Nodup
  free : ∀ d ∈ documents, d.outputPath ≠ d.path → ∀ c, t.get? (newPlace j d) ≠ some (.file c)

variable (h : CanMove t j documents) (hinput : j.input.IsClean)

include h hinput

theorem CanMove.eq_of_oldPlace (hd : d ∈ documents) (he : e ∈ documents)
    (heq : oldPlace j d = oldPlace j e) : d = e :=
  List.inj_on_of_nodup_map h.path hd he
    ((h.isPageOf d hd).path.descend_inj hinput (h.isPageOf e he).path heq)

theorem CanMove.eq_of_newPlace (hd : d ∈ documents) (he : e ∈ documents)
    (heq : newPlace j d = newPlace j e) : d = e :=
  List.inj_on_of_nodup_map h.outputPath hd he
    ((h.isPageOf d hd).outputPath.descend_inj hinput (h.isPageOf e he).outputPath heq)

/-- A page that goes to the file of a page is that page, and keeps its path. -/
theorem CanMove.eq_of_newPlace_oldPlace (hd : d ∈ documents) (he : e ∈ documents)
    (heq : newPlace j d = oldPlace j e) : d = e ∧ d.outputPath = d.path := by
  by_cases hpath : d.outputPath = d.path
  · refine ⟨h.eq_of_oldPlace hinput hd he ?_, hpath⟩
    rw [← heq, newPlace, oldPlace, hpath]
  · obtain ⟨c, hget, -⟩ := (h.isPageOf e he).file
    exact absurd (heq ▸ hget) (h.free d hd hpath c)

theorem CanMove.eq_of_place (hplace : j.output = j.input) {step' : Step} (hd : d ∈ documents)
    (he : e ∈ documents) (hstep : step ∈ j.writing d) (hstep' : step' ∈ j.writing e)
    (heq : step.place = step'.place) : d = e := by
  rcases mem_writing hplace hstep with rfl | ⟨rfl, -⟩
  · rcases mem_writing hplace hstep' with rfl | ⟨rfl, -⟩
    · exact h.eq_of_newPlace hinput hd he heq
    · exact (h.eq_of_newPlace_oldPlace hinput hd he heq).1
  · rcases mem_writing hplace hstep' with rfl | ⟨rfl, -⟩
    · exact (h.eq_of_newPlace_oldPlace hinput he hd heq.symm).1.symm
    · exact h.eq_of_oldPlace hinput hd he heq

theorem CanMove.nodup_places (hplace : j.output = j.input) :
    ((documents.flatMap j.writing).map Step.place).Nodup := by
  rw [List.map_flatMap, List.nodup_flatMap]
  constructor
  · intro d hd
    rw [writing_eq hplace]
    split
    · split
      · simp
      · next hpath =>
        have hne : newPlace j d ≠ oldPlace j d := fun heq =>
          hpath (h.eq_of_newPlace_oldPlace hinput hd hd heq).2
        simpa [Step.place] using hne
    · simp
  · refine h.path.of_map.imp_of_mem ?_
    intro d e hd he hne
    refine List.disjoint_left.2 fun p hp hp' => ?_
    obtain ⟨step, hstep, rfl⟩ := List.mem_map.1 hp
    obtain ⟨step', hstep', heq⟩ := List.mem_map.1 hp'
    exact hne (h.eq_of_place hinput hplace hd he hstep hstep' heq.symm)

/-! ## Where a run may stop -/

theorem CanMove.exists_done (disk : Nat → Fate) (ht : t.IsPlain) (hplace : j.output = j.input)
    {steps : List Step} (hsteps : steps <+: documents.flatMap j.writing) :
    ∃ done cut, Step.Did t (performAll disk t steps).1 steps done cut ∧
      ∀ s ∈ cut, ∃ fault, (performAll disk t steps).2 = some fault ∧ s.IsCutBy fault := by
  obtain ⟨done, cut, hdid, -, hcut⟩ := Step.exists_done ht
    (fun step hstep => isClean_of_mem_plan hinput hplace step (hsteps.subset hstep))
    ((hsteps.map Step.place).sublist.nodup (h.nodup_places hinput hplace))
    (fun step hstep _ hcopy => absurd hcopy (not_copiesFrom hplace (hsteps.subset hstep))) rfl
  exact ⟨done, cut, hdid, hcut⟩

/-- A write that was cut short and is about the file of a page is the write of that page. -/
theorem CanMove.eq_of_cut (hplace : j.output = j.input) {fault : Fault} (hd : d ∈ documents)
    (hstep : step ∈ documents.flatMap j.writing) (hcut : step.IsCutBy fault)
    (heq : step.place = oldPlace j d) :
    d.outputPath = d.path ∧ ∃ cause, fault = .notWritten (newPlace j d) ⟨cause, .writeFile⟩ := by
  obtain ⟨e, he, hwriting⟩ := List.mem_flatMap.1 hstep
  rcases mem_writing hplace hwriting with rfl | ⟨rfl, -⟩
  · obtain ⟨rfl, hpath⟩ := h.eq_of_newPlace_oldPlace hinput he hd heq
    exact ⟨hpath, hcut⟩
  · cases hcut

/-- **No page is lost**: its file is as it was, or its new text is at its new path, or its own write
was cut short. -/
theorem CanMove.page (hplace : j.output = j.input) {steps : List Step} {fault? : Option Fault}
    (hsteps : steps <+: documents.flatMap j.writing) (hdid : Step.Did t t' steps done cut)
    (hcut : ∀ s ∈ cut, ∃ fault, fault? = some fault ∧ s.IsCutBy fault) :
    ∀ d ∈ documents, t'.content? (oldPlace j d) = t.content? (oldPlace j d) ∨
      t'.content? (newPlace j d) = some (Utf8.encode d.updated) ∨
      (d.outputPath = d.path ∧
        ∃ cause, fault? = some (.notWritten (newPlace j d) ⟨cause, .writeFile⟩)) := by
  intro d hd
  have hfirst := hdid.first.trans hsteps
  have hdone : done <+: documents.flatMap j.writing := (List.prefix_append _ _).trans hfirst
  by_cases hmem : oldPlace j d ∈ (done ++ cut.toList).map Step.place
  · obtain ⟨step, hstep, heq⟩ := List.mem_map.1 hmem
    rcases List.mem_append.1 hstep with hstep | hstep
    · obtain ⟨e, he, hwriting⟩ := List.mem_flatMap.1 (hdone.subset hstep)
      rcases mem_writing hplace hwriting with rfl | ⟨rfl, -⟩
      · obtain ⟨rfl, -⟩ := h.eq_of_newPlace_oldPlace hinput he hd heq
        exact Or.inr (Or.inl (hdid.file _ hstep))
      · obtain ⟨e', he', hplace', hwritten⟩ := write_of_remove hplace hdone hstep
        obtain rfl := h.eq_of_oldPlace hinput he' hd (hplace'.symm.trans heq)
        exact Or.inr (Or.inl (hdid.file _ hwritten))
    · obtain ⟨fault, hfault, hcutBy⟩ := hcut step (Option.mem_toList.1 hstep)
      have hin := hfirst.subset (List.mem_append_right done hstep)
      obtain ⟨hpath, cause, rfl⟩ := h.eq_of_cut hinput hplace hd hin hcutBy heq
      exact Or.inr (Or.inr ⟨hpath, cause, hfault⟩)
  · exact Or.inl (hdid.rest _ hmem).content?

end InPlace

open InPlace

/-- Between two trees no page of a run in place is lost, but one whose write was cut short, and no
other file changes. -/
structure KeepsPages (j : Job) (s : Summary) (t t' : Tree) (fault? : Option Fault) : Prop where
  /-- The file that the page was read from is there, or the new text is at the new path, or the page
  keeps its path and the run ended when it had opened the file and wrote the new text. -/
  page : ∀ d ∈ s.documents, ∃ c, t.get? (Place.descend j.input d.path) = some (.file c) ∧
    d.content = Utf8.decode c ∧
    (t'.get? (Place.descend j.input d.path) = some (.file c) ∨
      t'.get? (Place.descend j.input d.outputPath) = some (.file (Utf8.encode d.updated)) ∨
      (d.outputPath = d.path ∧ ∃ cause,
        fault? = some (.notWritten (Place.descend j.input d.outputPath) ⟨cause, .writeFile⟩)))
  /-- A file that is no page of the run is as it was. -/
  other : ∀ p c, t.get? p = some (.file c) → (∀ d ∈ s.documents, p ≠ Place.descend j.input d.path) →
    t'.get? p = some (.file c)
  /-- A file that is new is where a page goes. -/
  fresh : ∀ p c, t.get? p = none → t'.get? p = some (.file c) →
    ∃ d ∈ s.documents, p = Place.descend j.input d.outputPath

theorem KeepsPages.of_did (h : CanMove t j s.documents) (hinput : j.input.IsClean)
    (hplace : j.output = j.input) {steps : List Step} {fault? : Option Fault}
    (hsteps : steps <+: s.documents.flatMap j.writing) (hdid : Step.Did t t' steps done cut)
    (hcut : ∀ step ∈ cut, ∃ fault, fault? = some fault ∧ step.IsCutBy fault) :
    KeepsPages j s t t' fault? := by
  have hother : ∀ p, (∀ d ∈ s.documents, p ≠ oldPlace j d ∧ p ≠ newPlace j d) →
      t'.content? p = t.content? p := fun p hp => content?_of_did hplace hsteps hdid hp
  refine ⟨?_, ?_, ?_⟩
  · intro d hd
    obtain ⟨c, hget, hcontent⟩ := (h.isPageOf d hd).file
    refine ⟨c, hget, hcontent, ?_⟩
    rw [← Tree.content?_eq_some_iff, ← Tree.content?_eq_some_iff,
      ← Tree.content?_eq_some_iff.2 hget]
    exact h.page hinput hplace hsteps hdid hcut d hd
  · intro p c hget hp
    rw [← Tree.content?_eq_some_iff, hother, Tree.content?_eq_some_iff.2 hget]
    refine fun d hd => ⟨hp d hd, ?_⟩
    rintro rfl
    by_cases hpath : d.outputPath = d.path
    · exact hp d hd (by rw [newPlace, hpath])
    · exact h.free d hd hpath c hget
  · intro p c hnone hget
    by_contra hno
    have hp : ∀ d ∈ s.documents, p ≠ oldPlace j d ∧ p ≠ newPlace j d := by
      intro d hd
      refine ⟨?_, fun heq => hno ⟨d, hd, heq⟩⟩
      rintro rfl
      obtain ⟨c', hget', -⟩ := (h.isPageOf d hd).file
      exact absurd (hnone.symm.trans hget') (by simp)
    have hsame := hother p hp
    rw [Tree.content?_eq_some_iff.2 hget] at hsame
    rw [Tree.content?_eq_some_iff.1 hsame.symm] at hnone
    cases hnone

/-- **A run in place loses no page, wherever it stops**, but one whose own write was cut short: after
any first part of its steps, and after the whole run, whether it returns or fails, and whatever the
disk does. -/
theorem run_keeps_pages (ht : t.IsPlain) (hinput : j.input.IsClean) (hplace : j.output = j.input)
    (hwet : j.dryRun = false)
    (hdry : ({ j with dryRun := true }.run host t).result = some (.ok s))
    (hpaths : (s.documents.map Document.outputPath).Nodup)
    (hfree : ∀ d ∈ s.documents, d.outputPath ≠ d.path →
      ∀ c, t.get? (Place.descend j.input d.outputPath) ≠ some (.file c)) :
    (∀ steps, steps <+: j.plan s.copied s.documents →
      KeepsPages j s t (performAll host.disk t steps).1 (performAll host.disk t steps).2) ∧
      KeepsPages j s t (j.run host t).tree (j.run host t).fault? := by
  obtain ⟨files, hdryReads, -⟩ := Job.reads_of_result hdry
  have hreads := hdryReads.of_dryRun
  have hcan : CanMove t j s.documents :=
    { isPageOf := hreads.isPageOf ht hinput
      path := hreads.map_path ht hinput ▸ (hreads.found_files ht hinput).1.filter _
      outputPath := hpaths
      free := hfree }
  have hplan : j.plan s.copied s.documents = s.documents.flatMap j.writing := by
    simp [Job.plan, hwet, Job.inPlace, hplace]
  have hall : ∀ steps, steps <+: j.plan s.copied s.documents →
      KeepsPages j s t (performAll host.disk t steps).1 (performAll host.disk t steps).2 := by
    intro steps hsteps
    rw [hplan] at hsteps
    obtain ⟨done, cut, hdid, hcut⟩ := hcan.exists_done hinput host.disk ht hplace hsteps
    exact .of_did hcan hinput hplace hsteps hdid hcut
  refine ⟨hall, ?_⟩
  rw [hreads.run.1, hreads.fault?]
  exact hall _ (List.prefix_refl _)

/-- A folder with an index and the page that it lists. -/
def notes : Tree :=
  ⟨[(["notes".toList], .folder),
    (["notes".toList, "README.md".toList], .file (Utf8.encode "- [A](a.md)\n".toList)),
    (["notes".toList, "a.md".toList], .file (Utf8.encode "# A\n".toList)),
    (["notes".toList, "b.txt".toList], .file [98])]⟩

/-- The pages of the folder are numbered where they are. -/
def numberNotes : Job :=
  { input := ["notes".toList], output := ["notes".toList], dryRun := false, ordinal := true
    exclude := [], anchors := [] }

/-- What is to be done: the index gets a new text, the page a new name. -/
def numberedNotes : Summary :=
  { documents :=
      [{ path := "README.md".toList, outputPath := "README.md".toList
         content := "- [A](a.md)\n".toList, updated := "- [A](01-a.md)\n".toList },
       { path := "a.md".toList, outputPath := "01-a.md".toList
         content := "# A\n".toList, updated := "# A\n".toList }]
    copied := ["b.txt".toList] }

theorem notes_keeps_pages :
    KeepsPages numberNotes numberedNotes notes (numberNotes.run plainHost notes).tree
      (numberNotes.run plainHost notes).fault? := by
  have hfree : ∀ d ∈ numberedNotes.documents, d.outputPath ≠ d.path →
      notes.content? (Place.descend numberNotes.input d.outputPath) = none := by decide +kernel
  refine (run_keeps_pages (by decide +kernel) (by decide +kernel) rfl rfl (by decide +kernel)
    (by decide +kernel) ?_).2
  intro d hd hne c hget
  rw [← Tree.content?_eq_some_iff, hfree d hd hne] at hget
  cases hget

/-- Every write leaves the file empty, as a disk does that is full. -/
def fullDisk : Host :=
  { accepts := fun _ _ => false
    disk := fun _ => .cutShort (some []) (.device "ENOSPC".toList "no space left on device".toList) }

/-- **A page whose write is cut short can be lost**: the index keeps its name, and neither of its two
texts is there. -/
theorem notes_cut_short :
    notes.IsPlain ∧
      ({ numberNotes with dryRun := true }.run fullDisk notes).result = some (.ok numberedNotes) ∧
      (numberedNotes.documents.map Document.outputPath).Nodup ∧
      (∀ d ∈ numberedNotes.documents, d.outputPath ≠ d.path →
        notes.get? (Place.descend numberNotes.input d.outputPath) = none) ∧
      ∃ d ∈ numberedNotes.documents,
        (numberNotes.run fullDisk notes).tree.get? (Place.descend numberNotes.input d.path) ≠
          notes.get? (Place.descend numberNotes.input d.path) ∧
        (numberNotes.run fullDisk notes).tree.get? (Place.descend numberNotes.input d.outputPath) ≠
          some (.file (Utf8.encode d.updated)) := by
  decide +kernel

end WikiTidy.Site
