import Mathlib.Data.List.Nodup
import WikiTidy.Proofs.Numbering.LinkTargets

/-!
# Where the pages of a numbered site go

When no two pages have one path, numbering works page by page (`number_eq_map`): each page gets its
new path, if it has one, and its links follow the other pages.

**Theorem (`renamed_inj_and_nodup_iff`).** Two renamed pages never get one path. A renamed page
collides only with a page that keeps its path and already has the numbered name; the output paths
are pairwise different exactly when there is no such page.

The site of `crowdedSite` has such a page: `a.md` is listed first, becomes `01-a.md`, and that page
exists.
-/

namespace WikiTidy.Numbering

open Text

variable {documents : List Document} {d : Document}

/-! ## Page by page -/

/-- One page of a site whose pages are renamed. -/
def renumber (table : Table Text Text) (d : Document) : Document :=
  { d with
    outputPath := (table.get? d.path).getD d.outputPath
    updated := followLinks (Path.folder d.path) table d.updated }

/-- A page gets its new path, unless it has one behind it with the same path. -/
theorem place_cons (table : Table Text Text) (d : Document) (ds : List Document) :
    place table (d :: ds) =
      { d with
        outputPath := if ds.any fun later => later.path = d.path then d.outputPath
          else (table.get? d.path).getD d.outputPath } :: place table ds := by
  rw [place]
  cases table.get? d.path <;> cases ds.any fun later => later.path = d.path <;> rfl

theorem place_nil (ds : List Document) : place [] ds = ds := by
  induction ds with
  | nil => rfl
  | cons d ds ih => simp [place_cons, ih, Table.get?]

theorem place_eq_map (table : Table Text Text) (h : (documents.map Document.path).Nodup) :
    place table documents = documents.map fun d =>
      { d with outputPath := (table.get? d.path).getD d.outputPath } := by
  induction documents with
  | nil => rfl
  | cons d ds ih =>
    rw [List.map_cons, List.nodup_cons] at h
    have hlast : (ds.any fun later => later.path = d.path) = false := by
      simpa using h.1
    simp [place_cons, ih h.2, hlast]

/-- Numbering with no new path changes nothing, so that is no case of its own. -/
theorem number_eq_place (documents : List Document) :
    number documents = place (renames documents) (documents.map fun d =>
      { d with updated := followLinks (Path.folder d.path) (renames documents) d.updated }) := by
  simp only [number]
  split
  · next hempty => simp [List.isEmpty_iff.1 hempty, place_nil, followLinks_nil]
  · rfl

theorem number_eq_map (h : (documents.map Document.path).Nodup) :
    number documents = documents.map (renumber (renames documents)) := by
  rw [number_eq_place, place_eq_map _ (by simpa [Function.comp_def] using h), List.map_map]
  rfl

theorem renumber_cases (documents : List Document) (hout : d.outputPath = d.path) :
    ((renames documents).get? d.path = none ∧
        (renumber (renames documents) d).outputPath = d.path) ∨
      ∃ new, (renames documents).get? d.path = some new ∧
        (renumber (renames documents) d).outputPath = new ∧ Renumbers d.path new := by
  cases hget : (renames documents).get? d.path with
  | none => exact Or.inl ⟨rfl, by simp [renumber, hget, hout]⟩
  | some new =>
    exact Or.inr ⟨new, rfl, by simp [renumber, hget], renumbers_of_get?_renames hget⟩

theorem renumbers_of_outputPath_ne (hout : d.outputPath = d.path)
    (h : (renumber (renames documents) d).outputPath ≠ d.path) :
    Renumbers d.path (renumber (renames documents) d).outputPath := by
  rcases renumber_cases documents hout with ⟨-, heq⟩ | ⟨new, -, heq, hren⟩
  · exact absurd heq h
  · rwa [heq]

/-- **No page leaves its folder.** -/
theorem folder_renumber (hout : d.outputPath = d.path) :
    Path.folder (renumber (renames documents) d).outputPath = Path.folder d.path := by
  rcases renumber_cases documents hout with ⟨-, heq⟩ | ⟨new, -, heq, hren⟩
  · rw [heq]
  · rw [heq, hren.folder_eq]

/-! ## Collisions -/

theorem eq_of_outputPath_eq (hpaths : (documents.map Document.path).Nodup)
    (hout : ∀ d ∈ documents, d.outputPath = d.path) :
    ∀ d ∈ number documents, ∀ e ∈ number documents,
      d.outputPath ≠ d.path → e.outputPath ≠ e.path → d.outputPath = e.outputPath → d = e := by
  rw [number_eq_map hpaths]
  simp only [List.mem_map, forall_exists_index, and_imp, forall_apply_eq_imp_iff₂]
  intro d hd e he hdne hene heq
  have hdren := renumbers_of_outputPath_ne (hout d hd) hdne
  have heren := renumbers_of_outputPath_ne (hout e he) hene
  rw [← heq] at heren
  rw [List.inj_on_of_nodup_map hpaths hd he (hdren.inj heren)]

/-- **Collisions.** Renamed pages never meet each other, and the output paths are pairwise
different exactly when no page is renamed to the path of a page that keeps its path. -/
theorem renamed_inj_and_nodup_iff (hpaths : (documents.map Document.path).Nodup)
    (hout : ∀ d ∈ documents, d.outputPath = d.path) :
    (∀ d ∈ number documents, ∀ e ∈ number documents,
      d.outputPath ≠ d.path → e.outputPath ≠ e.path → d.outputPath = e.outputPath → d = e) ∧
    (((number documents).map Document.outputPath).Nodup ↔
      ∀ d ∈ number documents, ∀ e ∈ number documents,
        d.outputPath ≠ d.path → e.outputPath = e.path → d.outputPath ≠ e.path) := by
  have hinj := eq_of_outputPath_eq hpaths hout
  have hnumber : ((number documents).map Document.path).Nodup := by
    rw [number_eq_map hpaths, List.map_map]
    exact hpaths
  refine ⟨hinj, ?_⟩
  rw [List.nodup_map_iff_inj_on hnumber.of_map]
  constructor
  · intro h d hd e he hdne hekeep heq
    have hde := h d hd e he (heq.trans hekeep.symm)
    exact hdne (hde ▸ hekeep)
  · intro h d hd e he heq
    by_cases hdkeep : d.outputPath = d.path
    · by_cases hekeep : e.outputPath = e.path
      · exact List.inj_on_of_nodup_map hnumber hd he (hdkeep.symm.trans (heq.trans hekeep))
      · exact absurd (heq.symm.trans hdkeep) (h e he d hd hekeep hdkeep)
    · by_cases hekeep : e.outputPath = e.path
      · exact absurd (heq.trans hekeep) (h d hd e he hdkeep hekeep)
      · exact hinj d hd e he hdkeep hekeep heq

/-- A page that has not been normalized. -/
def pageOf (path text : String) : Document :=
  { path := path.toList, outputPath := path.toList, content := text.toList, updated := text.toList }

/-- A site with a nested page and a page that has a number. -/
def guideSite : List Document :=
  [pageOf "03-done.md" "# Done\n",
    pageOf "README.md" "- [Overview](overview.md)\n- [Setup](guide/setup.md)\n- [Done](03-done.md)\n",
    pageOf "guide/setup.md" "Back: [o](../overview.md#intro)\n",
    pageOf "overview.md" "Next: [setup](./guide/setup.md)\n"]

theorem guideSite_outputPaths_nodup :
    (guideSite.map Document.path).Nodup ∧ (∀ d ∈ guideSite, d.outputPath = d.path) ∧
      ((number guideSite).map Document.outputPath).Nodup :=
  ⟨by decide +kernel, by decide +kernel,
    (renamed_inj_and_nodup_iff (by decide +kernel) (by decide +kernel)).2.2 (by decide +kernel)⟩

/-- A site in which the numbered name of a page is taken. -/
def crowdedSite : List Document :=
  [pageOf "01-a.md" "# One\n", pageOf "README.md" "- [A](a.md)\n", pageOf "a.md" "# A\n"]

/-- **A page can be renamed to the path of another page**, also when all paths are clean and
pairwise different. -/
theorem crowdedSite_outputPaths_not_nodup :
    (crowdedSite.map Document.path).Nodup ∧
      (∀ d ∈ crowdedSite, Path.clean d.path = d.path ∧ d.outputPath = d.path) ∧
      ¬((number crowdedSite).map Document.outputPath).Nodup := by
  decide +kernel

end WikiTidy.Numbering
