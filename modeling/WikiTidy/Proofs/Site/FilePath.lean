import WikiTidy.Proofs.Numbering.Renaming
import WikiTidy.Proofs.Path.Reduce
import WikiTidy.Proofs.Tree.Plain
import WikiTidy.Site.Discovery

/-!
# Paths of files

A file is reported by the names that lead to it from the folder of the site, with slashes between
them. Taken from any folder such a path leads to the same names again (`descend_pathOf`), so files
with different paths are at different places. A renamed page gets a path of the same kind
(`exists_names_of_renumbers`): its last name has a number in front and its folder is the same.
-/

namespace WikiTidy

open Text

namespace Place

theorem isClean_descend {folder : Place} (hfolder : folder.IsClean) (path : Text) :
    (descend folder path).IsClean := by
  intro name hname
  refine Path.isName_of_mem_reduce ?_ hname
  intro name hmem
  rcases List.mem_append.1 hmem with hmem | hmem
  · exact (hfolder name hmem).slash
  · exact notMem_of_mem_split hmem

end Place

namespace Site

variable {folder names names' : List Text} {path path' new : Text}

/-! ## Paths and places -/

/-- The path is made of proper names. -/
def IsFilePath (path : Text) : Prop :=
  ∃ names, names ≠ [] ∧ Place.IsClean names ∧ path = pathOf names

theorem isFilePath_iff : IsFilePath path ↔ Place.IsClean (split '/' path) := by
  constructor
  · rintro ⟨names, hne, hclean, rfl⟩
    rwa [pathOf, split_join hne fun name h => (hclean name h).slash]
  · intro hclean
    exact ⟨split '/' path, split_ne_nil '/' path, hclean, (join_split '/' path).symm⟩

instance (path : Text) : Decidable (IsFilePath path) := decidable_of_iff _ isFilePath_iff.symm

/-- **A path leads to the names it is made of.** -/
theorem descend_pathOf (hfolder : Place.IsClean folder) (hne : names ≠ [])
    (hnames : Place.IsClean names) : Place.descend folder (pathOf names) = folder ++ names := by
  rw [Place.descend, pathOf, split_join hne fun name h => (hnames name h).slash,
    Path.reduce_eq_self (Place.isClean_append.2 ⟨hfolder, hnames⟩)]

theorem pathOf_inj (hne : names ≠ []) (hne' : names' ≠ []) (hnames : Place.IsClean names)
    (hnames' : Place.IsClean names') (h : pathOf names = pathOf names') : names = names' := by
  have hslash : ∀ name ∈ names, '/' ∉ name := fun name h => (hnames name h).slash
  have hslash' : ∀ name ∈ names', '/' ∉ name := fun name h => (hnames' name h).slash
  exact (join_inj hne hne' hslash hslash').1 h

theorem IsFilePath.prefix_descend (hfolder : Place.IsClean folder) (h : IsFilePath path) :
    folder <+: Place.descend folder path := by
  obtain ⟨names, hne, hnames, rfl⟩ := h
  rw [descend_pathOf hfolder hne hnames]
  exact List.prefix_append folder names

/-- **Different paths lead to different places.** -/
theorem IsFilePath.descend_inj (hfolder : Place.IsClean folder) (h : IsFilePath path)
    (h' : IsFilePath path') (heq : Place.descend folder path = Place.descend folder path') :
    path = path' := by
  obtain ⟨names, hne, hnames, rfl⟩ := h
  obtain ⟨names', hne', hnames', rfl⟩ := h'
  rw [descend_pathOf hfolder hne hnames, descend_pathOf hfolder hne' hnames'] at heq
  rw [List.append_cancel_left heq]

/-! ## Renamed pages -/

/-- A renamed file stays in its folder under a proper name. -/
theorem exists_names_of_renumbers (hne : names ≠ []) (hnames : Place.IsClean names)
    (h : Numbering.Renumbers (pathOf names) new) :
    ∃ names', names' ≠ [] ∧ Place.IsClean names' ∧ new = pathOf names' ∧
      names'.dropLast = names.dropLast := by
  obtain ⟨init, last, rfl⟩ := (List.eq_nil_or_concat' names).resolve_left hne
  obtain ⟨stem, name, n, hstem, hname, -, hold, rfl⟩ := h
  obtain ⟨hinit, hlast⟩ := Place.isClean_append.1 hnames
  rw [pathOf, join_concat] at hold
  obtain ⟨rfl, rfl⟩ := stem_append_inj (isStem_flatMap init) hstem
    (hlast last (by simp)).slash hname.slash hold
  refine ⟨init ++ [Numbering.pad n ++ '-' :: last], by simp, ?_, ?_, by simp⟩
  · exact Place.isClean_append.2
      ⟨hinit, by simpa [Place.IsClean] using Numbering.isName_numbered hname n⟩
  · rw [pathOf, join_concat]

theorem isPage_of_renumbers (hpage : Path.isPage path = true) (h : Numbering.Renumbers path new) :
    Path.isPage new = true := by
  obtain ⟨stem, name, n, hstem, hname, -, rfl, rfl⟩ := h
  rw [Numbering.isPage_append hstem (by decide) (by decide)] at hpage ⊢
  rwa [Numbering.isPage_numbered]

end Site

end WikiTidy
