import WikiTidy.Proofs.Numbering.Destinations
import WikiTidy.Proofs.Numbering.Items

/-!
# Entries of a numbered site lead where they led

**Theorem (`number_keeps_entries`).** Let no two pages of a site have one path. Numbering takes every
page to a page in its place. When every item of the page that leads to a renamed page ends with a
name, the page has as many entries as before (`KeepsEntries`). An entry that led to some page leads
to the new path of this page in two cases (`KeepsUp`): its link leads there too and has no anchor,
or neither this page nor the one that its link leads to is renamed.

An entry is not read as a link is. It is a whole target, and it starts in the folder of its readme
even with a slash in front. The path of a link ends at a number sign, and a link from the root is
left alone. `looseSite` has an entry of each kind.

An entry may be broken over lines. Numbering then sees the line feeds and the index does not; when
both find the same page, the line feeds stand in front of its name and the number goes behind them
(`join_joined_follow`).
-/

namespace WikiTidy.Numbering

open Text

variable {documents : List Document} {dir target stem name anchor : Text}
  {table : Table Text Text}

/-! ## What a number does to an entry -/

/-- A word that ends with a slash is found at the head of a text in front of the last name. -/
theorem startsWith_append {w : Text} (hlast : w.getLast? = some '/') (hhash : '#' ∉ w)
    (hname : '/' ∉ (splitAnchor name).1) : startsWith w (stem ++ name) = startsWith w stem := by
  rw [Bool.eq_iff_iff, startsWith_iff, startsWith_iff]
  refine ⟨fun h => ?_, fun h => h.trans (List.prefix_append stem name)⟩
  rcases List.prefix_or_prefix_of_prefix h (List.prefix_append stem name) with hpre | ⟨rest, rfl⟩
  · exact hpre
  · rw [List.prefix_append_right_inj] at h
    obtain ⟨after, rfl⟩ := h
    rcases List.eq_nil_or_concat' rest with rfl | ⟨front, c, rfl⟩
    · simp
    · -- The slash would stand in front of the anchor.
      obtain rfl : c = '/' := by simpa [← List.append_assoc] using hlast
      have hrest : '#' ∉ front ++ ['/'] := fun hmem => hhash (List.mem_append_right _ hmem)
      rw [splitAnchor, List.takeWhile_append_of_pos (all_ne_of_notMem hrest)] at hname
      exact absurd (by simp) hname

theorem isExternal_append (hname : '/' ∉ (splitAnchor name).1) :
    isExternal (stem ++ name) = isExternal stem := by
  rw [isExternal, isExternal, startsWith_append (by decide) (by decide) hname,
    startsWith_append (by decide) (by decide) hname]

/-- **A number in front of the last name** makes no entry and takes none away. -/
theorem isLocalPage_numbered (hstem : IsStem '/' stem) (hslash : '/' ∉ name) (hhash : '#' ∉ name)
    (hanchor : ∀ c ∈ anchor.head?, c = '#') (n : Nat) :
    isLocalPage (stem ++ (pad n ++ '-' :: (name ++ anchor))) =
      isLocalPage (stem ++ (name ++ anchor)) := by
  have hold : '/' ∉ (splitAnchor (name ++ anchor)).1 := by
    rwa [splitAnchor_of_notMem hhash hanchor]
  have hnew : '/' ∉ (splitAnchor (pad n ++ '-' :: (name ++ anchor))).1 := by
    rw [← List.cons_append, ← List.append_assoc, splitAnchor_of_notMem _ hanchor]
    · simpa using ⟨notMem_pad (by decide), hslash⟩
    · simpa using ⟨notMem_pad (by decide), hhash⟩
  rw [isLocalPage, isLocalPage, isExternal_append hold, isExternal_append hnew,
    isPage_append hstem (by decide) (by decide), isPage_append hstem (by decide) (by decide),
    isPage_numbered]

theorem exists_numbered_of_follow {new : Text} (hrel : isRelative target = true)
    (hname : EndsWithName target)
    (hget : table.get? (Path.join dir (splitAnchor target).1) = some new)
    (hren : Renumbers (Path.join dir (splitAnchor target).1) new) :
    ∃ stem name anchor n, IsStem '/' stem ∧ '/' ∉ name ∧ '#' ∉ stem ++ name ∧
      (∀ c ∈ anchor.head?, c = '#') ∧ target = stem ++ (name ++ anchor) ∧
      follow dir table target = stem ++ (pad n ++ '-' :: (name ++ anchor)) ∧
      new = Path.join dir (stem ++ (pad n ++ '-' :: name)) := by
  obtain ⟨-, -, hne⟩ := isRelative_iff.1 hrel
  obtain ⟨n, hleaf, hnew⟩ := exists_numbered_of_renumbers hne hname hren
  obtain ⟨hpath, hstem, hslash⟩ := splitLast_spec '/' (splitAnchor target).1
  obtain ⟨hhash, hanchor⟩ := splitAnchor_spec target
  refine ⟨_, _, (splitAnchor target).2, n, hstem, hslash, hpath ▸ hhash, hanchor, ?_, ?_, ?_⟩
  · rw [← List.append_assoc, ← hpath, splitAnchor_append]
  · rw [follow_of_some hrel hget, hleaf]
    simp
  · rw [← hleaf, ← hnew]

/-- **Following renamed pages** makes no entry and takes none away. -/
theorem isLocalPage_joined_follow (hnew : ∀ old new, table.get? old = some new → Renumbers old new)
    (hname : ∀ new, isRelative target = true →
      table.get? (Path.join dir (splitAnchor target).1) = some new → EndsWithName target) :
    isLocalPage (joined (follow dir table target)) = isLocalPage (joined target) := by
  cases hrel : isRelative target with
  | false => rw [follow_of_not_isRelative hrel]
  | true =>
    cases hget : table.get? (Path.join dir (splitAnchor target).1) with
    | none => rw [follow_of_none hget]
    | some new =>
      obtain ⟨stem, name, anchor, n, hstem, hslash, hhash, hanchor, htarget, hfollow, -⟩ :=
        exists_numbered_of_follow hrel (hname new hrel hget) hget (hnew _ _ hget)
      have hhash' : '#' ∉ joined name :=
        notMem_joined_of_notMem fun hmem => hhash (List.mem_append_right _ hmem)
      have hanchor' : ∀ c ∈ (joined anchor).head?, c = '#' := by
        cases anchor with
        | nil => simp [joined]
        | cons c anchor =>
          obtain rfl : c = '#' := hanchor c rfl
          simp [joined]
      calc
        isLocalPage (joined (follow dir table target)) =
            isLocalPage (joined stem ++ (pad n ++ '-' :: (joined name ++ joined anchor))) := by
          rw [hfollow, joined_append, joined_numbered, joined_append]
        _ = isLocalPage (joined stem ++ (joined name ++ joined anchor)) :=
          isLocalPage_numbered (isStem_joined hstem) (notMem_joined_of_notMem hslash) hhash'
            hanchor' n
        _ = isLocalPage (joined target) := by
          rw [htarget, joined_append, joined_append]

theorem splitAnchor_eq_self (h : '#' ∉ target) : splitAnchor target = (target, []) := by
  have hsplit : splitAnchor (target ++ []) = (target, []) := splitAnchor_of_notMem h (by simp)
  rwa [List.append_nil] at hsplit

theorem isName_of_joined (h : Path.IsName (joined name)) (hslash : '/' ∉ name) :
    Path.IsName name where
  ne_nil he := h.ne_nil (by rw [he]; rfl)
  ne_here he := h.ne_here (by rw [he]; rfl)
  ne_above he := h.ne_above (by rw [he]; rfl)
  slash := hslash

theorem endsWithName_of_isPage (hhash : '#' ∉ target) (hpage : Path.isPage (joined target) = true) :
    EndsWithName target := by
  obtain ⟨stem, name, hstem, hslash, rfl⟩ := exists_eq_stem_append '/' target
  rw [joined_append] at hpage
  have hname := isName_of_joined
    (isName_of_isPage (isStem_joined hstem) (notMem_joined_of_notMem hslash) hpage) hslash
  rw [EndsWithName, splitAnchor_eq_self hhash, splitLast_append hstem hslash]
  exact ⟨hname.ne_here, hname.ne_above⟩

/-- **An entry follows its page** when its link leads there too. The line feeds that break it stand
in front of the last name, because the name of the page is found behind them either way. -/
theorem join_joined_follow {new : Text} (hhash : '#' ∉ target)
    (hpage : Path.isPage (joined target) = true)
    (hdest : destination? dir target = some (Path.join dir (joined target)))
    (hget : table.get? (Path.join dir (joined target)) = some new)
    (hren : Renumbers (Path.join dir (joined target)) new) :
    Path.join dir (joined (follow dir table target)) = new := by
  obtain ⟨hrel, hjoin⟩ := destination?_eq_some_iff.1 hdest
  rw [← hjoin] at hget hren
  obtain ⟨stem, name, anchor, n, hstem, hslash, -, hanchor, rfl, hfollow, rfl⟩ :=
    exists_numbered_of_follow hrel (endsWithName_of_isPage hhash hpage) hget hren
  obtain rfl : anchor = [] := by
    cases anchor with
    | nil => rfl
    | cons c anchor =>
      obtain rfl : c = '#' := hanchor c rfl
      exact absurd (by simp) hhash
  rw [List.append_nil] at hhash hpage hjoin hfollow
  rw [joined_append] at hpage hjoin
  have hname' := isName_of_isPage (isStem_joined hstem) (notMem_joined_of_notMem hslash) hpage
  have hname := isName_of_joined hname' hslash
  rw [splitAnchor_eq_self hhash, Path.join_append dir hstem hname,
    Path.join_append dir (isStem_joined hstem) hname'] at hjoin
  obtain ⟨hstems, hnames⟩ := stem_append_inj (Path.isStem_joinStem dir stem)
    (Path.isStem_joinStem dir (joined stem)) hslash hname'.slash hjoin
  calc
    Path.join dir (joined (follow dir table (stem ++ (name ++ [])))) =
        Path.join dir (joined stem ++ (pad n ++ '-' :: joined name)) := by
      rw [List.append_nil, hfollow, joined_append, joined_numbered]
    _ = Path.joinStem dir (joined stem) ++ (pad n ++ '-' :: joined name) :=
      Path.join_append dir (isStem_joined hstem) (isName_numbered hname' n)
    _ = Path.joinStem dir stem ++ (pad n ++ '-' :: name) := by rw [← hstems, ← hnames]
    _ = Path.join dir (stem ++ (pad n ++ '-' :: name)) :=
      (Path.join_append dir hstem (isName_numbered hname n)).symm

/-! ## Entries of a numbered site -/

/-- The items of a page that lead to renamed pages end with a name. The pages of the site are given
with what becomes of them. -/
def ItemsEndWithNames (pages : List (Document × Document)) (d : Document) : Prop :=
  ∀ target ∈ sources d.updated, ∀ p ∈ pages, p.2.outputPath ≠ p.1.path →
    destination? (Path.folder d.path) target = some p.1.path → EndsWithName target

instance (pages : List (Document × Document)) (d : Document) :
    Decidable (ItemsEndWithNames pages d) :=
  inferInstanceAs (Decidable (∀ target ∈ sources d.updated, ∀ p ∈ pages, _))

/-- An entry of a page of the folder `dir`, as it is written, that leads to the page `p` and keeps
up with it. -/
inductive KeepsUp (pages : List (Document × Document)) (dir target : Text)
    (p : Document × Document) : Prop
  /-- As a link, the entry leads to that page too, and it has no anchor. -/
  | linked : '#' ∉ target → destination? dir target = some p.1.path → KeepsUp pages dir target p
  /-- That page is not renamed, and neither is any page that the entry leads to as a link. -/
  | still : p.2.outputPath = p.1.path → (∀ q ∈ pages, destination? dir target = some q.1.path →
      q.2.outputPath = q.1.path) → KeepsUp pages dir target p

/-- What becomes of the entries of the page `d`, which is `d'` afterwards: there are as many, and
each that keeps up with its page leads to where that page goes. -/
structure KeepsEntries (pages : List (Document × Document)) (d d' : Document) : Prop where
  length : (entries d'.updated).length = (entries d.updated).length
  leads : ∀ (k : Nat) (target : Text), (entries d.updated)[k]? = some target →
    ∃ source, (written d.updated)[k]? = some source ∧ joined source = target ∧
      ∀ p ∈ pages, Path.join (Path.folder d.path) target = p.1.path →
        KeepsUp pages (Path.folder d.path) source p →
        ∃ target', (entries d'.updated)[k]? = some target' ∧
          Path.join (Path.folder d'.outputPath) target' = p.2.outputPath

theorem entries_renumber (hpaths : (documents.map Document.path).Nodup) {d : Document}
    (hitems : ItemsEndWithNames (documents.zip (number documents)) d) :
    entries (renumber (renames documents) d).updated = (written d.updated).map
      (joined ∘ follow (Path.folder d.path) (renames documents)) := by
  refine entries_mapTargets_of_isLocalPage
    (fun t => isTarget_follow fun _ _ h => renumbers_of_get?_renames h) fun target htarget => ?_
  refine isLocalPage_joined_follow (fun _ _ h => renumbers_of_get?_renames h)
    fun new hrel hget => ?_
  obtain ⟨p, hp, hpath, hne⟩ := exists_renamed_of_get?_renames hpaths hget
  exact hitems target htarget p hp hne (destination?_eq_some_iff.2 ⟨hrel, hpath.symm⟩)

theorem join_joined_follow_of_keepsUp (hpaths : (documents.map Document.path).Nodup)
    (hout : ∀ d ∈ documents, d.outputPath = d.path) {d : Document} (hd : d ∈ documents)
    {source : Text} (hpage : Path.isPage (joined source) = true) {p : Document × Document}
    (hp : p ∈ documents.zip (number documents))
    (hjoin : Path.join (Path.folder d.path) (joined source) = p.1.path)
    (hkeeps : KeepsUp (documents.zip (number documents)) (Path.folder d.path) source p) :
    Path.join (Path.folder d.path)
      (joined (follow (Path.folder d.path) (renames documents) source)) = p.2.outputPath := by
  obtain ⟨hpmem, hpnumber⟩ := mem_zip_number hpaths hp
  cases hkeeps with
  | linked hhash hdest =>
    rw [hpnumber]
    rcases renumber_cases documents (hout p.1 hpmem) with ⟨hget, heq⟩ | ⟨new, hget, heq, hren⟩
    · have hpath := (destination?_eq_some_iff.1 hdest).2
      rw [follow_of_none (hpath ▸ hget), hjoin, heq]
    · rw [← hjoin] at hdest hget hren
      rw [join_joined_follow hhash hpage hdest hget hren, heq]
  | still hsame hnone =>
    rw [(keepsTarget_follow hpaths hout hd source).unchanged hnone, hjoin, hsame]

theorem keepsEntries_renumber (hpaths : (documents.map Document.path).Nodup)
    (hout : ∀ d ∈ documents, d.outputPath = d.path) {d : Document} (hd : d ∈ documents)
    (hitems : ItemsEndWithNames (documents.zip (number documents)) d) :
    KeepsEntries (documents.zip (number documents)) d (renumber (renames documents) d) := by
  have hentries := entries_renumber hpaths hitems
  refine ⟨by rw [hentries, entries_eq, List.length_map, List.length_map], fun k target hk => ?_⟩
  rw [entries_eq, List.getElem?_map, Option.map_eq_some_iff] at hk
  obtain ⟨source, hsource, rfl⟩ := hk
  refine ⟨source, hsource, rfl, fun p hp hjoin hkeeps =>
    ⟨joined (follow (Path.folder d.path) (renames documents) source), ?_, ?_⟩⟩
  · rw [hentries, List.getElem?_map, hsource]
    rfl
  · have hlocal : isLocalPage (joined source) = true :=
      (List.mem_filter.1 (List.mem_of_getElem? hsource)).2
    rw [isLocalPage, Bool.and_eq_true] at hlocal
    rw [folder_renumber (hout d hd)]
    exact join_joined_follow_of_keepsUp hpaths hout hd hlocal.2 hp hjoin hkeeps

/-- **Entries lead where they led.** -/
theorem number_keeps_entries (hpaths : (documents.map Document.path).Nodup)
    (hout : ∀ d ∈ documents, d.outputPath = d.path) :
    List.Forall₂ (fun d d' => ItemsEndWithNames (documents.zip (number documents)) d →
      KeepsEntries (documents.zip (number documents)) d d') documents (number documents) := by
  have hkeeps : ∀ d ∈ documents, ItemsEndWithNames (documents.zip (number documents)) d →
      KeepsEntries (documents.zip (number documents)) d (renumber (renames documents) d) :=
    fun d hd => keepsEntries_renumber hpaths hout hd
  generalize documents.zip (number documents) = pages at hkeeps ⊢
  rw [number_eq_map hpaths, List.forall₂_map_right_iff, List.forall₂_same]
  exact hkeeps

theorem crowdedSite_keeps_entries :
    ∃ e ∈ crowdedSite.zip (number crowdedSite), ∃ p ∈ crowdedSite.zip (number crowdedSite),
      (entries e.1.updated)[0]? = some p.1.path ∧ p.2.outputPath ≠ p.1.path ∧
        ∃ target', (entries e.2.updated)[0]? = some target' ∧
          Path.join (Path.folder e.2.outputPath) target' = p.2.outputPath := by
  have hpaths : (crowdedSite.map Document.path).Nodup := by decide +kernel
  have hout : ∀ d ∈ crowdedSite, d.outputPath = d.path := by decide +kernel
  have hindex : pageOf "README.md" "- [A](a.md)\n" ∈ crowdedSite := by decide +kernel
  have hpage : pageOf "a.md" "# A\n" ∈ crowdedSite := by decide +kernel
  have hentry : (entries (pageOf "README.md" "- [A](a.md)\n").updated)[0]? =
      some "a.md".toList := by decide +kernel
  have hwritten : (written (pageOf "README.md" "- [A](a.md)\n").updated)[0]? =
      some "a.md".toList := by decide +kernel
  refine ⟨_, mem_zip_number_of_mem hpaths hindex, _, mem_zip_number_of_mem hpaths hpage, hentry,
    by decide +kernel, ?_⟩
  have hkeeps := List.forall₂_zip (number_keeps_entries hpaths hout)
    (mem_zip_number_of_mem hpaths hindex) (by decide +kernel)
  obtain ⟨source, hsource, -, hleads⟩ := hkeeps.leads 0 _ hentry
  obtain rfl : "a.md".toList = source := Option.some.inj (hwritten.symm.trans hsource)
  exact hleads _ (mem_zip_number_of_mem hpaths hpage) (by decide +kernel)
    (.linked (by decide +kernel) (by decide +kernel))

/-- A site whose index has an entry from the root and one with a number sign. -/
def looseSite : List Document :=
  [pageOf "README.md" "- [A](/a.md)\n- [B](b#c.md)\n", pageOf "a.md" "# A\n",
    pageOf "b#c.md" "# B\n"]

/-- **An entry can lose its page**, also when all paths are clean and pairwise different. -/
theorem looseSite_loses_entries :
    (looseSite.map Document.path).Nodup ∧
      (∀ d ∈ looseSite, Path.clean d.path = d.path ∧ d.outputPath = d.path) ∧
      ¬∀ e ∈ looseSite.zip (number looseSite), Path.leaf e.1.path = readmeName →
        ∀ (k : Nat) (target : Text), (entries e.1.updated)[k]? = some target →
          ∀ p ∈ looseSite.zip (number looseSite),
            Path.join (Path.folder e.1.path) target = p.1.path →
            ∃ target', (entries e.2.updated)[k]? = some target' ∧
              Path.join (Path.folder e.2.outputPath) target' = p.2.outputPath := by
  have hpaths : (looseSite.map Document.path).Nodup := by decide +kernel
  have hindex : pageOf "README.md" "- [A](/a.md)\n- [B](b#c.md)\n" ∈ looseSite := by decide +kernel
  have hpage : pageOf "a.md" "# A\n" ∈ looseSite := by decide +kernel
  refine ⟨hpaths, by decide +kernel, fun h => ?_⟩
  obtain ⟨target', hget, hjoin⟩ := h _ (mem_zip_number_of_mem hpaths hindex) (by decide +kernel)
    0 "/a.md".toList (by decide +kernel) _ (mem_zip_number_of_mem hpaths hpage) (by decide +kernel)
  have hentry : (entries (renumber (renames looseSite)
      (pageOf "README.md" "- [A](/a.md)\n- [B](b#c.md)\n")).updated)[0]? =
        some "/a.md".toList := by decide +kernel
  obtain rfl : "/a.md".toList = target' := Option.some.inj (hentry.symm.trans hget)
  exact absurd hjoin (by decide +kernel)

end WikiTidy.Numbering
