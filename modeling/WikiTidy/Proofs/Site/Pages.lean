import WikiTidy.Proofs.Numbering.OutputPaths
import WikiTidy.Proofs.Site.Discovery
import WikiTidy.Proofs.Tree.Changes
import WikiTidy.Site.Run

/-!
# What a run reads

A run works on what it finds in the tree before its first step (`Job.Reads`): this is the same for
a dry run, and for every output folder. In a plain tree each file that is found is there once
(`discover_files`), and each page is one of these files, with its content and with a path to go to
(`Job.Reads.isPageOf`).
-/

namespace WikiTidy

theorem forall₂_of_mapM_eq_ok {α β ε : Type} {f : α → Except ε β} {as : List α} {bs : List β}
    (h : as.mapM f = .ok bs) : List.Forall₂ (fun a b => f a = .ok b) as bs := by
  induction as generalizing bs with
  | nil =>
    obtain rfl : [] = bs := by simpa [pure, Except.pure] using h
    exact .nil
  | cons a as ih =>
    rw [List.mapM_cons] at h
    cases ha : f a with
    | error e => simp [ha, bind, Except.bind] at h
    | ok b =>
      cases has : as.mapM f with
      | error e => simp [ha, has, bind, Except.bind] at h
      | ok bs' =>
        obtain rfl : b :: bs' = bs := by
          simpa [ha, has, bind, Except.bind, pure, Except.pure] using h
        exact .cons ha (ih has)

theorem exists_of_forall₂ {α β : Type} {R : α → β → Prop} {as : List α} {bs : List β} {b : β}
    (h : List.Forall₂ R as bs) (hb : b ∈ bs) : ∃ a ∈ as, R a b := by
  induction h with
  | nil => cases hb
  | cons hab _ ih =>
    rcases List.mem_cons.1 hb with rfl | hb
    · exact ⟨_, List.mem_cons_self, hab⟩
    · obtain ⟨a, ha, hr⟩ := ih hb
      exact ⟨a, List.mem_cons_of_mem _ ha, hr⟩

variable {t : Tree} {folder names : List Text} {e : Entry}

namespace Site

variable {files exclude : List Text} {path : Text} {j : Job} {s : Summary} {d : Document}
  {accepts : Text → Text → Bool} {host : Host} {notices : List Notice}

/-! ## Files -/

theorem getsDone_of_isPlain (ht : t.IsPlain) (folder real : Place) : GetsDone t folder real := by
  intro names hends
  obtain ⟨⟨target, hreach⟩, -⟩ := hends
  exact ht.noLink _ _ hreach.entry

theorem IsSiteFile.exists_file (ht : t.IsPlain) {real : Place} {leads : Leads}
    (h : IsSiteFile t real leads names) : ∃ c, Reaches t real names (.file c) := by
  rcases h.found with hfile | ⟨target, hlink, -⟩
  · exact hfile
  · exact absurd hlink.entry (ht.noLink _ _)

/-- **Every file is found once**, by a path of proper names. -/
theorem discover_files (ht : t.IsPlain) (hfolder : Place.IsClean folder)
    (h : discover accepts t folder exclude = some (.ok files, notices)) :
    files.Nodup ∧
      ∀ path ∈ files, IsFilePath path ∧ ∃ c, t.get? (Place.descend folder path) = some (.file c) := by
  cases hreal : t.realFolder folder with
  | error cause => simp [discover, hreal] at h
  | ok real =>
    obtain ⟨rfl, -⟩ := (ht.realFolder_eq_ok_iff hfolder).1 hreal
    have hexclude : [] ∉ exclude := by
      intro hempty
      rw [discover, hreal] at h
      dsimp only at h
      split at h
      · cases h
      · rw [if_pos (by simpa using hempty)] at h
        cases h
    obtain ⟨files', notices', hdiscover, hfinds⟩ := finds_of_getsDone accepts ht.toIsSound
      (getsDone_of_isPlain ht real real) hreal hexclude
    obtain ⟨heq, -⟩ := Prod.mk.inj (Option.some.inj (hdiscover.symm.trans h))
    obtain rfl := Except.ok.inj heq
    refine ⟨hfinds.nodup, fun path hpath => ?_⟩
    obtain ⟨⟨names, rfl, hsite⟩, -⟩ := (hfinds.mem_iff path).1 hpath
    obtain ⟨c, hreach⟩ := hsite.exists_file ht
    have hnames := hreach.isClean ht.toIsSound
    refine ⟨⟨names, hreach.ne_nil, hnames, rfl⟩, c, ?_⟩
    rw [descend_pathOf hfolder hreach.ne_nil hnames, hreach.entry]

/-! ## Pages that changed -/

theorem eq_of_not_isChanged (h : d.isChanged = false) :
    d.updated = d.content ∧ d.outputPath = d.path := by
  rw [Document.isChanged, Bool.or_eq_false_iff] at h
  exact ⟨by simpa using h.1, by simpa using h.2⟩

theorem Summary.mem_changed_iff :
    path ∈ s.changed ↔ ∃ d ∈ s.documents, d.isChanged = true ∧ d.outputPath = path := by
  simp [Summary.changed, and_assoc]

/-! ## Pages -/

/-- What a run works on: the files it finds, and the pages it makes of them. -/
structure Job.Reads (j : Job) (accepts : Text → Text → Bool) (t : Tree) (files : List Text)
    (s : Summary) : Prop where
  found : ∃ notices, discover accepts t j.input j.exclude = some (.ok files, notices)
  documents : j.documents t files = .ok s.documents
  copied : s.copied = files.filter fun path => !Path.isPage path

theorem Job.Reads.run (h : j.Reads host.accepts t files s) :
    (j.run host t).tree = (Step.performAll host.disk t (j.plan s.copied s.documents)).1 ∧
      (j.run host t).result =
        match (Step.performAll host.disk t (j.plan s.copied s.documents)).2 with
        | none => some (.ok s)
        | some fault => some (.error fault) := by
  obtain ⟨documents, copied⟩ := s
  obtain ⟨⟨notices, hdiscover⟩, hdocuments, rfl⟩ := h
  rw [Job.run, hdiscover]
  dsimp only
  rw [hdocuments]
  exact ⟨rfl, rfl⟩

theorem Job.Reads.fault? (h : j.Reads host.accepts t files s) :
    (j.run host t).fault? =
      (Step.performAll host.disk t (j.plan s.copied s.documents)).2 := by
  rw [Outcome.fault?, h.run.2]
  cases (Step.performAll host.disk t (j.plan s.copied s.documents)).2 <;> rfl

/-- A run reads all it needs, or it stops before its first step. -/
theorem Job.reads_or_unread (j : Job) (host : Host) (t : Tree) :
    (∃ files s, j.Reads host.accepts t files s) ∨
      (j.run host t).tree = t ∧ ∀ s, (j.run host t).result ≠ some (.ok s) := by
  cases hdiscover : discover host.accepts t j.input j.exclude with
  | none => exact Or.inr (by simp [Job.run, hdiscover])
  | some found =>
    obtain ⟨found, notices⟩ := found
    cases found with
    | error fault => exact Or.inr (by simp [Job.run, hdiscover])
    | ok files =>
      cases hdocuments : j.documents t files with
      | error fault => exact Or.inr (by simp [Job.run, hdiscover, hdocuments])
      | ok documents =>
        exact Or.inl ⟨files, ⟨documents, files.filter fun path => !Path.isPage path⟩,
          ⟨notices, hdiscover⟩, hdocuments, rfl⟩

/-- **A run that returns** has read what it reports and done all its steps. -/
theorem Job.reads_of_result (h : (j.run host t).result = some (.ok s)) :
    ∃ files, j.Reads host.accepts t files s ∧
      Step.performAll host.disk t (j.plan s.copied s.documents) =
        ((j.run host t).tree, none) := by
  rcases j.reads_or_unread host t with ⟨files, s', hreads⟩ | ⟨-, hnone⟩
  · obtain ⟨htree, hresult⟩ := hreads.run
    rw [h] at hresult
    split at hresult
    · next hnone =>
      obtain rfl := Except.ok.inj (Option.some.inj hresult)
      exact ⟨files, hreads, Prod.ext htree.symm hnone⟩
    · cases hresult
  · exact absurd h (hnone s)

/-- What is read is the same whatever is done with it. -/
theorem Job.Reads.of_dryRun (h : { j with dryRun := true }.Reads accepts t files s) :
    j.Reads accepts t files s :=
  ⟨h.found, h.documents, h.copied⟩

theorem Job.Reads.found_files (ht : t.IsPlain) (hinput : j.input.IsClean)
    (h : j.Reads accepts t files s) :
    files.Nodup ∧
      ∀ path ∈ files, IsFilePath path ∧ ∃ c, t.get? (Place.descend j.input path) = some (.file c) := by
  obtain ⟨notices, hfound⟩ := h.found
  exact discover_files ht hinput hfound

theorem map_path_of_forall₂ {documents : List Document}
    (h : List.Forall₂ (fun path d => d.path = path) files documents) :
    files = documents.map Document.path := by
  rw [← List.forall₂_eq_eq_eq, List.forall₂_map_right_iff]
  exact h.imp fun _ _ heq => heq.symm

theorem Job.document_eq_ok (h : j.document t path = .ok d) :
    d.path = path ∧ d.outputPath = path ∧
      ∃ c, t.read (Place.descend j.input path) = .ok c ∧ d.content = Utf8.decode c := by
  cases hread : t.read (Place.descend j.input path) with
  | error cause => simp [Job.document, Job.readPage, hread, Except.map] at h
  | ok c =>
    simp only [Job.document, Job.readPage, hread, Except.map, Except.ok.injEq] at h
    subst h
    exact ⟨rfl, rfl, c, rfl, rfl⟩

/-- A page is read from the file at a path, and it goes there or gets a number. -/
structure Job.PageFrom (j : Job) (t : Tree) (path : Text) (d : Document) : Prop where
  path_eq : d.path = path
  file : ∃ c, t.read (Place.descend j.input path) = .ok c ∧ d.content = Utf8.decode c
  outputPath : d.outputPath = path ∨ Numbering.Renumbers path d.outputPath

/-- **The pages are the files whose paths say so**, in this order. -/
theorem Job.Reads.pageFrom (ht : t.IsPlain) (hinput : j.input.IsClean)
    (h : j.Reads accepts t files s) :
    List.Forall₂ (j.PageFrom t) (files.filter Path.isPage) s.documents := by
  have hdocuments := h.documents
  unfold Job.documents at hdocuments
  cases hmapM : (files.filter Path.isPage).mapM (j.document t) with
  | error fault => simp [hmapM, Except.map] at hdocuments
  | ok pages =>
    have hpages := forall₂_of_mapM_eq_ok hmapM
    simp only [hmapM, Except.map, Except.ok.injEq] at hdocuments
    rw [← hdocuments]
    split
    · have hpaths : (pages.map Document.path).Nodup := by
        rw [← map_path_of_forall₂ (hpages.imp fun path d hd => (Job.document_eq_ok hd).1)]
        exact (h.found_files ht hinput).1.filter _
      rw [Numbering.number_eq_map hpaths, List.forall₂_map_right_iff]
      refine hpages.imp ?_
      intro path d hd
      obtain ⟨rfl, hout, hfile⟩ := Job.document_eq_ok hd
      refine ⟨rfl, hfile, ?_⟩
      rcases Numbering.renumber_cases pages hout with ⟨-, heq⟩ | ⟨new, -, heq, hnew⟩
      · exact Or.inl heq
      · exact Or.inr (heq ▸ hnew)
    · refine hpages.imp ?_
      intro path d hd
      obtain ⟨hpath, hout, hfile⟩ := Job.document_eq_ok hd
      exact ⟨hpath, hfile, Or.inl hout⟩

theorem Job.Reads.map_path (ht : t.IsPlain) (hinput : j.input.IsClean)
    (h : j.Reads accepts t files s) :
    s.documents.map Document.path = files.filter Path.isPage :=
  (map_path_of_forall₂ ((h.pageFrom ht hinput).imp fun _ _ hd => hd.path_eq)).symm

/-- The page is a file of the tree and has a path to go to. -/
structure IsPageOf (t : Tree) (input : Place) (d : Document) : Prop where
  path : IsFilePath d.path
  outputPath : IsFilePath d.outputPath
  isPage : Path.isPage d.outputPath = true
  /-- The file that the page was read from. -/
  file : ∃ c, t.get? (Place.descend input d.path) = some (.file c) ∧ d.content = Utf8.decode c

/-- **Every page is a file with a path to go to.** -/
theorem Job.Reads.isPageOf (ht : t.IsPlain) (hinput : j.input.IsClean)
    (h : j.Reads accepts t files s) : ∀ d ∈ s.documents, IsPageOf t j.input d := by
  intro d hd
  obtain ⟨path, hpath, hfrom⟩ := exists_of_forall₂ (h.pageFrom ht hinput) hd
  obtain ⟨hmem, hpage⟩ := List.mem_filter.1 hpath
  obtain ⟨names, hne, hnames, hpathOf⟩ := ((h.found_files ht hinput).2 path hmem).1
  have hfile : IsFilePath path := ⟨names, hne, hnames, hpathOf⟩
  obtain ⟨c, hread, hcontent⟩ := hfrom.file
  have hget := (ht.read_eq_ok_iff (Place.isClean_descend hinput path)).1 hread
  obtain rfl := hfrom.path_eq
  rcases hfrom.outputPath with heq | hnew
  · exact ⟨hfile, heq ▸ hfile, heq ▸ hpage, c, hget, hcontent⟩
  · obtain ⟨names', hne', hnames', hnewOf, -⟩ := exists_names_of_renumbers hne hnames (hpathOf ▸ hnew)
    exact ⟨hfile, ⟨names', hne', hnames', hnewOf⟩, isPage_of_renumbers hpage hnew, c, hget, hcontent⟩

/-- No pattern accepts anything, and the disk does all steps. -/
def plainHost : Host := { accepts := fun _ _ => false, disk := fun _ => .done }

end Site

end WikiTidy
