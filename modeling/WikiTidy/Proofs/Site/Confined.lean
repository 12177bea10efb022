import WikiTidy.Proofs.Site.Pages
import WikiTidy.Proofs.Site.Steps

/-!
# A run changes its output folder alone

The names of the files that a run writes come from what is in the files that it reads: a readme may
list targets that go up with `..` or that start with a slash.

**Theorem (`run_confined`).** Whatever a run reads, and wherever it stops, all that differs after it
is the output folder, what is below it, and new folders on the way to it. A dry run changes nothing.

Every step is about a place below the output folder (`prefix_place`): a page goes to a path of
proper names, renamed or not, and its old file is removed only in place. A run of steps changes
nothing but these places and the way to them (`Step.kept_performAll`), and what is on the way to a
place below a folder is below that folder or above it.
-/

namespace WikiTidy.Site

open Step (performAll)

variable {t t' : Tree} {j : Job} {host : Host} {disk : Nat → Fate} {s : Summary}
  {files copied : List Text} {documents : List Document} {step : Step} {steps : List Step} {folder : Place}

/-! ## Where the steps of a run are -/

theorem Job.mem_plan (h : step ∈ j.plan copied documents) :
    (∃ path ∈ copied, step = j.copying path) ∨
      ∃ d ∈ documents, step = .write (Place.descend j.output d.outputPath) d.updated ∨
        (j.input = j.output ∧ step = .remove (Place.descend j.input d.path)) := by
  unfold Job.plan at h
  split at h
  · cases h
  · rcases List.mem_append.1 h with hcopy | hwrite
    · left
      split at hcopy
      · cases hcopy
      · simpa [eq_comm] using hcopy
    · right
      obtain ⟨d, hd, hmem⟩ := List.mem_flatMap.1 hwrite
      refine ⟨d, hd, ?_⟩
      unfold Job.writing at hmem
      split at hmem
      · cases hmem
      · rcases List.mem_cons.1 hmem with rfl | hremove
        · exact Or.inl rfl
        · split at hremove
          · next hmoved =>
            rw [Bool.and_eq_true] at hmoved
            exact Or.inr ⟨by simpa [Job.inPlace] using hmoved.1, by simpa using hremove⟩
          · cases hremove

/-- **Every step is about a place below the output folder.** -/
theorem Job.Reads.prefix_place (ht : t.IsPlain) (hinput : j.input.IsClean)
    (houtput : j.output.IsClean) (hreads : j.Reads host.accepts t files s)
    (h : step ∈ j.plan s.copied s.documents) : step.IsClean ∧ j.output <+: step.place := by
  rcases Job.mem_plan h with ⟨path, hpath, rfl⟩ | ⟨d, hd, rfl | ⟨hplace, rfl⟩⟩
  · rw [hreads.copied, List.mem_filter] at hpath
    have hfile := ((hreads.found_files ht hinput).2 path hpath.1).1
    exact ⟨⟨Place.isClean_descend hinput path, Place.isClean_descend houtput path⟩,
      hfile.prefix_descend houtput⟩
  · exact ⟨Place.isClean_descend houtput d.outputPath,
      (hreads.isPageOf ht hinput d hd).outputPath.prefix_descend houtput⟩
  · refine ⟨Place.isClean_descend hinput d.path, ?_⟩
    rw [← hplace]
    exact (hreads.isPageOf ht hinput d hd).path.prefix_descend hinput

/-! ## What differs after a run -/

/-- All that differs between two trees is a folder, what is below it, and new folders on the way to
it. -/
def Confined (folder : Place) (t t' : Tree) : Prop :=
  ∀ p, t'.get? p ≠ t.get? p →
    folder <+: p ∨ (p <+: folder ∧ t.get? p = none ∧ t'.get? p = some .folder)

theorem Confined.refl (folder : Place) (t : Tree) : Confined folder t t :=
  fun _ h => absurd rfl h

theorem confined_performAll (ht : t.IsPlain) (hclean : ∀ s ∈ steps, s.IsClean)
    (hplaces : ∀ s ∈ steps, folder <+: s.place) : Confined folder t (performAll disk t steps).1 := by
  intro p hp
  by_cases hmem : p ∈ steps.map Step.place
  · obtain ⟨s, hs, rfl⟩ := List.mem_map.1 hmem
    exact Or.inl (hplaces s hs)
  · rcases Step.kept_performAll ht hclean rfl p hmem with hsame | ⟨hnone, hfolder, q, hq, hpq⟩
    · exact absurd hsame hp
    · -- a new folder on the way to a place below the folder is below it or above it
      obtain ⟨s, hs, rfl⟩ := List.mem_map.1 hq
      rcases List.prefix_or_prefix_of_prefix hpq (hplaces s hs) with habove | hbelow
      · exact Or.inr ⟨habove, hnone, hfolder⟩
      · exact Or.inl hbelow

/-- **A run changes its output folder alone**, after any first part of its steps and after the whole
run, whether it returns or fails, and a dry run changes nothing. -/
theorem run_confined (ht : t.IsPlain) (hinput : j.input.IsClean) (houtput : j.output.IsClean) :
    (∀ files s, j.Reads host.accepts t files s → ∀ steps, steps <+: j.plan s.copied s.documents →
      Confined j.output t (performAll host.disk t steps).1) ∧
    Confined j.output t (j.run host t).tree ∧
    (j.dryRun = true → (j.run host t).tree = t) := by
  have hall : ∀ files s, j.Reads host.accepts t files s → ∀ steps,
      steps <+: j.plan s.copied s.documents → Confined j.output t (performAll host.disk t steps).1 := by
    intro files s hreads steps hsteps
    have hstep : ∀ step ∈ steps, step.IsClean ∧ j.output <+: step.place :=
      fun step hmem => hreads.prefix_place ht hinput houtput (hsteps.subset hmem)
    exact confined_performAll ht (fun step hmem => (hstep step hmem).1)
      fun step hmem => (hstep step hmem).2
  refine ⟨hall, ?_, ?_⟩
  · rcases j.reads_or_unread host t with ⟨files, s, hreads⟩ | ⟨hsame, -⟩
    · rw [hreads.run.1]
      exact hall files s hreads _ (List.prefix_refl _)
    · rw [hsame]
      exact Confined.refl j.output t
  · intro hdry
    rcases j.reads_or_unread host t with ⟨files, s, hreads⟩ | ⟨hsame, -⟩
    · rw [hreads.run.1, Job.plan, if_pos hdry]
      rfl
    · exact hsame

/-- A folder with a readme that lists pages outside the folder, and a page with the path of one of
them. -/
def climbing : Tree :=
  ⟨[(["in".toList], .folder),
    (["in".toList, "README.md".toList],
      .file (Utf8.encode "- [A](../a.md)\n- [B](/b.md)\n- [C](x/../../in/../b.md)\n".toList)),
    (["in".toList, "b.md".toList], .file (Utf8.encode "Menu\n# B\n".toList)),
    (["a.md".toList], .file (Utf8.encode "# Not ours\n".toList))]⟩

/-- The folder is exported, with numbers, into a folder that is not there yet. -/
def numberClimbing : Job :=
  { input := ["in".toList], output := ["export".toList, "site".toList], dryRun := false
    ordinal := true, exclude := [], anchors := [] }

theorem climbing_confined :
    Confined numberClimbing.output climbing (numberClimbing.run plainHost climbing).tree :=
  (run_confined (by decide +kernel) (by decide +kernel) (by decide +kernel)).2.1

end WikiTidy.Site
