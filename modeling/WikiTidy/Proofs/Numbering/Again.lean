import WikiTidy.Proofs.Numbering.Entries

/-!
# Numbering a site again

A run in place leaves every page at its new path, and a later run starts from there
(`Document.asWritten`).

**Theorem (`number_again_eq_iff`).** The later run changes no page exactly when every page that a
readme of the numbered site lists has a name with a number of two digits. This is so when no readme
has a hundred entries and no item has a slash behind a number sign.

Both conditions are needed. A number of three digits is not told as a number, so the page gets
another one in front of it (`longSite`). And an item whose link follows a renamed page takes its
anchor with it: a slash in the anchor ends the numbered name, and as an entry the item can then lead
to a page that no readme listed before.

Without such items, a page that is listed in the numbered site is renamed, or its entry has the
number of the page that the link of the entry follows, or the first run saw the same entry and found
a number in the name of the page (`isNumbered_of_lists`).
-/

namespace WikiTidy

open Text

/-- The page as the next run finds it, when it was written where it goes. -/
def Document.asWritten (d : Document) : Document where
  path := d.outputPath
  outputPath := d.outputPath
  content := d.updated
  updated := d.updated

namespace Numbering

variable {documents : List Document} {d r : Document} {old new target : Text}

/-! ## Numbers of two digits -/

theorem toNat_le_of_isDigit {c : Char} (h : isDigit c = true) : c.toNat - '0'.toNat ≤ 9 := by
  simp only [isDigit, Bool.and_eq_true, decide_eq_true_eq, Char.le_def, UInt32.le_iff_toNat_le] at h
  have hnine : '9'.val.toNat = 57 := rfl
  have hzero : '0'.toNat = 48 := rfl
  have hval : c.toNat = c.val.toNat := rfl
  omega

theorem isNumbered_pad_iff (n : Nat) (s : Text) :
    isNumbered (pad n ++ '-' :: s) = true ↔ n < 100 := by
  constructor
  · intro h
    unfold isNumbered at h
    split at h
    · next a b rest heq =>
      obtain ⟨ha, hb⟩ := Bool.and_eq_true_iff.1 h
      have hdash : '-' ∉ [a, b] := by
        intro hmem
        rcases List.mem_pair.1 hmem with rfl | rfl
        · exact absurd ha (by decide)
        · exact absurd hb (by decide)
      obtain ⟨hpad, -⟩ := append_sep_inj (notMem_pad (by decide)) hdash
        (show pad n ++ '-' :: s = [a, b] ++ '-' :: rest from heq)
      have hvalue := ofDigitChars_pad n
      rw [hpad] at hvalue
      have := toNat_le_of_isDigit ha
      have := toNat_le_of_isDigit hb
      simp only [Nat.ofDigitChars, List.foldl] at hvalue
      omega
    · cases h
  · intro h
    have htwo : ∀ k < 100, (pad k).length = 2 ∧ (pad k).all isDigit = true := by decide
    obtain ⟨hlength, hdigits⟩ := htwo n h
    obtain ⟨a, b, hpad⟩ := List.length_eq_two.1 hlength
    rw [hpad] at hdigits ⊢
    simpa [isNumbered] using hdigits

/-! ## Which pages a run renames -/

/-- The readme lists the page. -/
def Lists (readme d : Document) : Prop :=
  Path.leaf readme.path = readmeName ∧
    ∃ target ∈ entries readme.updated, Path.join (Path.folder readme.path) target = d.path

instance (r d : Document) : Decidable (Lists r d) :=
  inferInstanceAs (Decidable (_ ∧ ∃ target ∈ entries r.updated, _))

theorem leaf_join_of_mem_entries {readme : Text} (h : target ∈ entries readme) (dir : Text) :
    Path.leaf (Path.join dir target) = (splitLast '/' target).2 := by
  obtain ⟨stem, name, hstem, hname, -, rfl⟩ := exists_name_of_mem_entries h
  rw [Path.join_append dir hstem hname, splitLast_append hstem hname.slash,
    Path.leaf_append (Path.isStem_joinStem dir stem) hname.ne_nil hname.slash]

theorem mem_keys_newNames_iff {readme : Text} :
    target ∈ (newNames readme).keys ↔
      target ∈ entries readme ∧ isNumbered (splitLast '/' target).2 = false := by
  rw [newNames, Table.mem_keys_ofPairs, List.map_map, List.mem_map]
  constructor
  · rintro ⟨⟨t, i⟩, hmem, rfl⟩
    obtain ⟨hzip, hnumber⟩ := List.mem_filter.1 hmem
    exact ⟨List.fst_mem_of_mem_zipIdx hzip, by simpa using hnumber⟩
  · rintro ⟨hmem, hnumber⟩
    obtain ⟨i, hi⟩ := List.mem_iff_getElem?.1 hmem
    exact ⟨(target, i), List.mem_filter.2
      ⟨List.mem_zipIdx_iff_getElem?.2 hi, by simpa using hnumber⟩, rfl⟩

theorem exists_mem_proposals_iff (hreadme : Path.leaf r.path = readmeName) :
    (∃ new, (d.path, new) ∈ proposals r) ↔ Lists r d ∧ isNumbered (Path.leaf d.path) = false := by
  constructor
  · rintro ⟨new, hmem⟩
    obtain ⟨⟨target, name⟩, hname, he⟩ := List.mem_map.1 hmem
    obtain ⟨hentry, hnumber⟩ := mem_keys_newNames_iff.1 (List.mem_map_of_mem hname)
    obtain ⟨hpath, -⟩ := Prod.mk.inj he
    rw [← leaf_join_of_mem_entries hentry (Path.folder r.path), hpath] at hnumber
    exact ⟨⟨hreadme, target, hentry, hpath⟩, hnumber⟩
  · rintro ⟨⟨-, target, hentry, hpath⟩, hnumber⟩
    rw [← hpath, leaf_join_of_mem_entries hentry] at hnumber
    obtain ⟨⟨target, name⟩, hname, rfl⟩ :=
      List.mem_map.1 (mem_keys_newNames_iff.2 ⟨hentry, hnumber⟩)
    exact ⟨_, List.mem_map.2 ⟨(target, name), hname, Prod.ext hpath rfl⟩⟩

/-- **A page keeps its path** exactly when it has a number or no readme lists it. -/
theorem get?_renames_eq_none_iff (hd : d ∈ documents) :
    (renames documents).get? d.path = none ↔
      ∀ r ∈ documents, Lists r d → isNumbered (Path.leaf d.path) = true := by
  have hany : (documents.any fun e => e.path = d.path) = true :=
    List.any_eq_true.2 ⟨d, hd, by simp⟩
  rw [get?_renames, if_pos hany, Option.map_eq_none_iff, List.find?_eq_none]
  constructor
  · intro h r hr hlists
    by_contra hnumber
    rw [Bool.not_eq_true] at hnumber
    obtain ⟨new, hmem⟩ := (exists_mem_proposals_iff hlists.1).2 ⟨hlists, hnumber⟩
    have hreadme : r ∈ readmes documents :=
      mem_sortBy.2 (List.mem_filter.2 ⟨hr, by simpa using hlists.1⟩)
    exact h _ (List.mem_flatMap.2 ⟨r, hreadme, hmem⟩) (by simp)
  · rintro h ⟨old, new⟩ hmem
    obtain ⟨r, hreadme, hmem⟩ := List.mem_flatMap.1 hmem
    obtain ⟨hr, hleaf⟩ := List.mem_filter.1 (mem_sortBy.1 hreadme)
    rw [decide_eq_true_eq]
    rintro rfl
    obtain ⟨hlists, hnumber⟩ := (exists_mem_proposals_iff (by simpa using hleaf)).1 ⟨new, hmem⟩
    rw [h r hr hlists] at hnumber
    cases hnumber

theorem number_eq_self_iff (hpaths : (documents.map Document.path).Nodup)
    (hout : ∀ d ∈ documents, d.outputPath = d.path) :
    number documents = documents ↔ ∀ d ∈ documents, (renames documents).get? d.path = none := by
  constructor
  · intro h d hd
    rw [number_eq_map hpaths] at h
    have hsame : renumber (renames documents) d = d :=
      List.map_inj_left.1 (h.trans (List.map_id documents).symm) d hd
    rcases renumber_cases documents (hout d hd) with ⟨hnone, -⟩ | ⟨new, -, hnew, hren⟩
    · exact hnone
    · rw [hsame, hout d hd] at hnew
      exact absurd hnew.symm hren.ne
  · intro h
    have hempty : renames documents = [] := by
      cases htable : renames documents with
      | nil => rfl
      | cons e table =>
        have hget : (renames documents).get? e.1 = some e.2 := by simp [htable, Table.get?]
        obtain ⟨d, hd, hpath⟩ := exists_of_get?_renames hget
        rw [← hpath, h d hd] at hget
        cases hget
    simp [number, hempty]

/-! ## Entries of a numbered site -/

/-- An index with less than a hundred entries, in which no item has a slash behind a number
sign. -/
structure IsPlainIndex (page : Text) : Prop where
  few : (entries page).length < 100
  anchors : ∀ target ∈ sources page, '/' ∉ (splitAnchor target).2

instance (page : Text) : Decidable (IsPlainIndex page) :=
  decidable_of_iff ((entries page).length < 100 ∧
    ∀ target ∈ sources page, '/' ∉ (splitAnchor target).2)
    ⟨fun h => ⟨h.1, h.2⟩, fun h => ⟨h.few, h.anchors⟩⟩

theorem isNumbered_of_get?_renames
    (hfew : ∀ r ∈ documents, Path.leaf r.path = readmeName → (entries r.updated).length < 100)
    (h : (renames documents).get? old = some new) : isNumbered (Path.leaf new) = true := by
  rw [get?_renames] at h
  split at h
  · obtain ⟨⟨old', new'⟩, hfind, rfl⟩ := Option.map_eq_some_iff.1 h
    obtain ⟨r, hreadme, hmem⟩ := List.mem_flatMap.1 (List.mem_of_find?_eq_some hfind)
    obtain ⟨hr, hleaf⟩ := List.mem_filter.1 (mem_sortBy.1 hreadme)
    obtain ⟨⟨target, numberedTarget⟩, hnew, he⟩ := List.mem_map.1 hmem
    obtain ⟨-, rfl⟩ := Prod.mk.inj he
    obtain ⟨i, hi, -, rfl⟩ := exists_of_mem_newNames hnew
    obtain ⟨stem, name, hstem, hname, -, rfl⟩ :=
      exists_name_of_mem_entries (List.mem_of_getElem? hi)
    have hnum := isName_numbered hname (i + 1)
    have hpath : numbered (i + 1) (stem ++ name) = stem ++ (pad (i + 1) ++ '-' :: name) := by
      simp only [numbered, splitLast_append hstem hname.slash, List.append_assoc]
    show isNumbered (Path.leaf (Path.join (Path.folder r.path) (numbered (i + 1) _))) = true
    rw [hpath, Path.join_append _ hstem hnum,
      Path.leaf_append (Path.isStem_joinStem _ stem) hnum.ne_nil hnum.slash, isNumbered_pad_iff]
    have := (List.getElem?_eq_some_iff.1 hi).1
    have := hfew r hr (by simpa using hleaf)
    omega
  · cases h

/-- **A link that followed a renamed page** has a number as an entry too, unless a slash in its
anchor ends the name. -/
theorem isNumbered_joined_follow {dir : Text} {table : Table Text Text}
    (hnew : ∀ old new, table.get? old = some new →
      Renumbers old new ∧ isNumbered (Path.leaf new) = true)
    (hanchor : '/' ∉ (splitAnchor target).2) (hne : follow dir table target ≠ target) :
    isNumbered (splitLast '/' (joined (follow dir table target))).2 = true := by
  cases hrel : isRelative target with
  | false => exact absurd (follow_of_not_isRelative hrel) hne
  | true =>
    cases hget : table.get? (Path.join dir (splitAnchor target).1) with
    | none => exact absurd (follow_of_none hget) hne
    | some new =>
      obtain ⟨⟨stem, name, n, hstem, hname, -, -, rfl⟩, hnumber⟩ := hnew _ _ hget
      have hnum := isName_numbered hname n
      have hleaf := Path.leaf_append hstem hnum.ne_nil hnum.slash
      obtain ⟨-, hfront, -⟩ := splitLast_spec '/' (splitAnchor target).1
      have hback : '/' ∉ pad n ++ '-' :: joined (name ++ (splitAnchor target).2) := by
        have hrest : '/' ∉ joined (name ++ (splitAnchor target).2) :=
          notMem_joined_of_notMem (by simpa using ⟨hname.slash, hanchor⟩)
        simpa using ⟨notMem_pad (by decide), hrest⟩
      have hjoined : joined (follow dir table target) =
          joined (splitLast '/' (splitAnchor target).1).1 ++
            (pad n ++ '-' :: joined (name ++ (splitAnchor target).2)) := by
        rw [follow_of_some hrel hget, hleaf, List.append_assoc, List.append_assoc, List.cons_append,
          joined_append, joined_numbered]
      rw [hjoined, splitLast_append (isStem_joined hfront) hback, isNumbered_pad_iff]
      exact (isNumbered_pad_iff n name).1 (hleaf ▸ hnumber)

theorem Renumbers.leaf_ne_readmeName (h : Renumbers old new) : Path.leaf new ≠ readmeName := by
  obtain ⟨stem, name, n, hstem, hname, -, -, rfl⟩ := h
  have hnum := isName_numbered hname n
  rw [Path.leaf_append hstem hnum.ne_nil hnum.slash]
  intro h
  have hdash : '-' ∈ readmeName := h ▸ by simp
  exact absurd hdash (by decide)

theorem outputPath_of_isReadme (hout : d.outputPath = d.path)
    (h : Path.leaf (renumber (renames documents) d).outputPath = readmeName) :
    (renumber (renames documents) d).outputPath = d.path := by
  rcases renumber_cases documents hout with ⟨-, heq⟩ | ⟨new, -, heq, hren⟩
  · exact heq
  · exact absurd (heq ▸ h) hren.leaf_ne_readmeName

/-- **A page that is listed after numbering** has a number. -/
theorem isNumbered_of_lists (hout : ∀ d ∈ documents, d.outputPath = d.path)
    (hplain : ∀ r ∈ documents, Path.leaf r.path = readmeName → IsPlainIndex r.updated)
    (hr : r ∈ documents) (hd : d ∈ documents)
    (h : Lists (renumber (renames documents) r).asWritten
      (renumber (renames documents) d).asWritten) :
    isNumbered (Path.leaf (renumber (renames documents) d).outputPath) = true := by
  have hnew : ∀ old new, (renames documents).get? old = some new →
      Renumbers old new ∧ isNumbered (Path.leaf new) = true := fun _ _ hget =>
    ⟨renumbers_of_get?_renames hget,
      isNumbered_of_get?_renames (fun r hr hleaf => (hplain r hr hleaf).few) hget⟩
  rcases renumber_cases documents (hout d hd) with ⟨hkeep, hsame⟩ | ⟨new, hget, hsame, -⟩
  · obtain ⟨hreadme, target, hentry, hpath⟩ := h
    simp only [Document.asWritten] at hreadme hpath hentry
    have hrpath := outputPath_of_isReadme (hout r hr) hreadme
    rw [hrpath] at hreadme hpath
    rw [hsame] at hpath ⊢
    have hentries := entries_mapTargets (g := follow (Path.folder r.path) (renames documents))
      (fun t => isTarget_follow fun old new hget => (hnew old new hget).1) r.updated
    obtain ⟨hmem, hlocal⟩ := List.mem_filter.1 (hentries ▸ hentry)
    obtain ⟨source, hsource, rfl⟩ := List.mem_map.1 hmem
    by_cases hfollow : follow (Path.folder r.path) (renames documents) source = source
    · -- The entry was there before, and the page was not renamed.
      rw [Function.comp_apply, hfollow] at hlocal hpath
      have hbefore : joined source ∈ entries r.updated := by
        rw [entries_eq]
        exact List.mem_map_of_mem (List.mem_filter.2 ⟨hsource, hlocal⟩)
      exact (get?_renames_eq_none_iff hd).1 hkeep r hr ⟨hreadme, joined source, hbefore, hpath⟩
    · rw [← hpath, leaf_join_of_mem_entries hentry]
      exact isNumbered_joined_follow hnew ((hplain r hr hreadme).anchors source hsource) hfollow
  · rw [hsame]
    exact (hnew _ _ hget).2

/-! ## The second run -/

/-- **Numbering again.** A run over the numbered site changes nothing exactly when every page that a
readme of this site lists has a number of two digits, and this is so when every readme has a plain
index. -/
theorem number_again_eq_iff (hpaths : (documents.map Document.path).Nodup)
    (hout : ∀ d ∈ documents, d.outputPath = d.path)
    (houtputs : ((number documents).map Document.outputPath).Nodup) :
    (number ((number documents).map Document.asWritten) =
        (number documents).map Document.asWritten ↔
      ∀ r ∈ number documents, ∀ d ∈ number documents, Lists r.asWritten d.asWritten →
        isNumbered (Path.leaf d.outputPath) = true) ∧
    ((∀ r ∈ documents, Path.leaf r.path = readmeName → IsPlainIndex r.updated) →
      number ((number documents).map Document.asWritten) =
        (number documents).map Document.asWritten) := by
  have hpaths' : (((number documents).map Document.asWritten).map Document.path).Nodup := by
    rw [List.map_map]
    exact houtputs
  have hout' : ∀ d ∈ (number documents).map Document.asWritten, d.outputPath = d.path := by
    intro d hd
    obtain ⟨e, -, rfl⟩ := List.mem_map.1 hd
    rfl
  have hiff : number ((number documents).map Document.asWritten) =
        (number documents).map Document.asWritten ↔
      ∀ r ∈ number documents, ∀ d ∈ number documents, Lists r.asWritten d.asWritten →
        isNumbered (Path.leaf d.outputPath) = true := by
    rw [number_eq_self_iff hpaths' hout', List.forall_mem_map]
    constructor
    · intro h r hr d hd
      exact (get?_renames_eq_none_iff (List.mem_map_of_mem hd)).1 (h d hd) _
        (List.mem_map_of_mem hr)
    · intro h d hd
      rw [get?_renames_eq_none_iff (List.mem_map_of_mem hd), List.forall_mem_map]
      exact fun r hr => h r hr d hd
  refine ⟨hiff, fun hplain => hiff.2 ?_⟩
  rw [number_eq_map hpaths]
  simp only [List.forall_mem_map]
  exact fun r hr d hd => isNumbered_of_lists hout hplain hr hd

theorem guideSite_number_again :
    (guideSite.map Document.path).Nodup ∧ (∀ d ∈ guideSite, d.outputPath = d.path) ∧
      ((number guideSite).map Document.outputPath).Nodup ∧
      (∀ r ∈ guideSite, Path.leaf r.path = readmeName → IsPlainIndex r.updated) ∧
      number ((number guideSite).map Document.asWritten) =
        (number guideSite).map Document.asWritten := by
  have hpaths : (guideSite.map Document.path).Nodup := by decide +kernel
  have hout : ∀ d ∈ guideSite, d.outputPath = d.path := by decide +kernel
  have houtputs : ((number guideSite).map Document.outputPath).Nodup := by decide +kernel
  have hplain : ∀ r ∈ guideSite, Path.leaf r.path = readmeName → IsPlainIndex r.updated := by
    decide +kernel
  exact ⟨hpaths, hout, houtputs, hplain, (number_again_eq_iff hpaths hout houtputs).2 hplain⟩

/-- An index whose hundredth entry leads to a page. -/
def longIndex : Text :=
  (List.replicate 99 "- [A](.md)\n".toList).flatten ++ "- [P](p.md)\n".toList

/-- A site with a page that gets a number of three digits. -/
def longSite : List Document :=
  [{ path := readmeName, outputPath := readmeName, content := longIndex, updated := longIndex },
    pageOf "p.md" "# P\n"]

/-- **A number of three digits** is not told as a number, and the next run puts it in front of the
name once more. -/
theorem longSite_number_again :
    (longSite.map Document.path).Nodup ∧
      (∀ d ∈ longSite, Path.clean d.path = d.path ∧ d.outputPath = d.path) ∧
      ((number longSite).map Document.outputPath).Nodup ∧
      (number longSite).map Document.outputPath = [readmeName, "100-p.md".toList] ∧
      (number ((number longSite).map Document.asWritten)).map Document.outputPath =
        [readmeName, "100-100-p.md".toList] ∧
      number ((number longSite).map Document.asWritten) ≠
        (number longSite).map Document.asWritten := by
  have hfirst : (number longSite).map Document.outputPath =
      [readmeName, "100-p.md".toList] := by decide +kernel
  have hsecond : (number ((number longSite).map Document.asWritten)).map Document.outputPath =
      [readmeName, "100-100-p.md".toList] := by decide +kernel
  refine ⟨by decide +kernel, by decide +kernel, ?_, hfirst, hsecond, fun hsame => ?_⟩
  · rw [hfirst]
    decide
  · rw [hsame, List.map_map, show Document.outputPath ∘ Document.asWritten = Document.outputPath
      from rfl, hfirst] at hsecond
    exact absurd hsecond (by decide)

end Numbering

end WikiTidy
