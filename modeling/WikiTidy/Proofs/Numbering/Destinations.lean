import Mathlib.Data.List.Forall2
import WikiTidy.Proofs.Numbering.OutputPaths

/-!
# Links of a numbered site lead where they led

**Theorem (`number_keeps_destinations`).** Let no two pages of a site have one path. Numbering takes
every page to a page in its place, where a search finds a link wherever it found one before, and all
text outside link targets is the same. A link that led to no renamed page is unchanged. A link that
led to a page, by a path that ends with a name, leads to the new path of that page, with its folders
and its anchor as they were written.

Both ends of a link can be renamed at once. The page that links stays in its folder
(`folder_renumber`), so its paths still start where they did. The path of the link is a stem with
the name of the page behind it, and joining carries the name over, so the numbered name behind the
same stem is the new path.
-/

namespace WikiTidy.Numbering

open Text

/-! ## What a link leads to -/

/-- The path of the page that a target leads to, from a page of the folder `dir`. -/
def destination? (dir target : Text) : Option Text :=
  if isRelative target then some (Path.join dir (splitAnchor target).1) else none

/-- The path of a target does not end with one of the dot names. -/
def EndsWithName (target : Text) : Prop :=
  (splitLast '/' (splitAnchor target).1).2 ≠ Path.here ∧
    (splitLast '/' (splitAnchor target).1).2 ≠ Path.above

instance (target : Text) : Decidable (EndsWithName target) := inferInstanceAs (Decidable (_ ∧ _))

/-- What becomes of a target in the page `d`, which is `d'` afterwards. The pages of the site are
given with what becomes of them. -/
structure KeepsTarget (pages : List (Document × Document)) (d d' : Document)
    (target target' : Text) : Prop where
  /-- A target that leads to no renamed page stays as it is. -/
  unchanged : (∀ e ∈ pages, destination? (Path.folder d.path) target = some e.1.path →
    e.2.outputPath = e.1.path) → target' = target
  /-- A target that leads to a page leads to where that page goes; its folders and its anchor stay
  as they are written. -/
  leads : ∀ e ∈ pages, destination? (Path.folder d.path) target = some e.1.path →
    EndsWithName target →
      destination? (Path.folder d'.outputPath) target' = some e.2.outputPath ∧
        (splitLast '/' (splitAnchor target').1).1 = (splitLast '/' (splitAnchor target).1).1 ∧
        (splitAnchor target').2 = (splitAnchor target).2

/-- What becomes of a piece of the page `d`: a character stays, and so does a link, with a target
that is kept. -/
inductive KeepsPiece (pages : List (Document × Document)) (d d' : Document) :
    Piece Text → Piece Text → Prop
  | plain (c : Char) : KeepsPiece pages d d' (.plain c) (.plain c)
  | link {target target' : Text} : KeepsTarget pages d d' target target' →
      KeepsPiece pages d d' (.hit target (renderTarget target)) (.hit target' (renderTarget target'))

/-- What becomes of the page `d`, which is `d'` afterwards: the same page, kept piece by piece. -/
structure KeepsLinks (pages : List (Document × Document)) (d d' : Document) : Prop where
  path : d'.path = d.path
  /-- The pieces are the whole text. -/
  source : (scan linkTarget d.updated).flatMap Piece.source = d.updated
  source' : (scan linkTarget d'.updated).flatMap Piece.source = d'.updated
  pieces : List.Forall₂ (KeepsPiece pages d d') (scan linkTarget d.updated)
    (scan linkTarget d'.updated)

/-! ## A number in the path of a target -/

/-- A word without digits is found at the head of a text only in front of the first digit. -/
theorem startsWith_digit {w a b x : Text} {c : Char} (hc : c ∉ w)
    (h : startsWith w (a ++ b) = false) : startsWith w (a ++ c :: x) = false := by
  rw [Bool.eq_false_iff] at h ⊢
  intro hx
  refine h (startsWith_iff.2 ?_)
  have hac : a ++ [c] <+: a ++ c :: x := ⟨x, by simp⟩
  have hshort : w <+: a ++ [c] := by
    rcases List.prefix_or_prefix_of_prefix (startsWith_iff.1 hx) hac with hpre | hpre
    · exact hpre
    · exact absurd (hpre.subset (by simp)) hc
  rcases List.prefix_concat_iff.1 hshort with rfl | hpre
  · exact absurd (by simp) hc
  · exact hpre.trans (List.prefix_append a b)

theorem isRelative_iff {target : Text} :
    isRelative target = true ↔ isExternal target = false ∧ startsWith ['/'] target = false ∧
      (splitAnchor target).1 ≠ [] := by
  simp only [isRelative, Bool.and_eq_true, Bool.not_eq_true', List.isEmpty_eq_false_iff, and_assoc]

/-- A target stays relative when its last name gets a number. -/
theorem isRelative_numbered {a b x : Text} (n : Nat) (h : isRelative (a ++ b) = true)
    (hpath : (splitAnchor (a ++ (pad n ++ x))).1 ≠ []) :
    isRelative (a ++ (pad n ++ x)) = true := by
  obtain ⟨hext, hroot, -⟩ := isRelative_iff.1 h
  rw [isExternal, Bool.or_eq_false_iff] at hext
  obtain ⟨c, r, hpad⟩ := List.exists_cons_of_ne_nil (pad_ne_nil n)
  have hdigit : c.isDigit := isDigit_of_mem_pad (n := n) (hpad ▸ List.mem_cons_self)
  have hnot : ∀ w : Text, (w.all fun c => !c.isDigit) = true → c ∉ w := by
    intro w hw hmem
    have := List.all_eq_true.1 hw c hmem
    simp [hdigit] at this
  rw [isRelative_iff]
  refine ⟨?_, ?_, hpath⟩
  · rw [isExternal, Bool.or_eq_false_iff, hpad, List.cons_append]
    exact ⟨startsWith_digit (hnot _ (by decide)) hext.1,
      startsWith_digit (hnot _ (by decide)) hext.2⟩
  · rw [hpad, List.cons_append]
    exact startsWith_digit (hnot _ (by decide)) hroot

/-- The anchor of a target starts at the first number sign. -/
theorem splitAnchor_of_notMem {path anchor : Text} (hpath : '#' ∉ path)
    (hanchor : ∀ c ∈ anchor.head?, c = '#') : splitAnchor (path ++ anchor) = (path, anchor) := by
  have hstop : ∀ c ∈ anchor.head?, (c != '#') = false := by
    intro c hc
    simp [hanchor c hc]
  rw [splitAnchor, takeWhile_append_stop (all_ne_of_notMem hpath) hstop,
    dropWhile_append_stop (all_ne_of_notMem hpath) hstop]

theorem splitAnchor_spec (target : Text) :
    '#' ∉ (splitAnchor target).1 ∧ ∀ c ∈ (splitAnchor target).2.head?, c = '#' := by
  constructor
  · intro h
    simpa using List.all_eq_true.1 (List.all_takeWhile (p := (· != '#')) (l := target)) _ h
  · intro c hc
    have hd := List.head?_dropWhile_not (· != '#') target
    rw [show List.dropWhile (· != '#') target = (splitAnchor target).2 from rfl, hc] at hd
    simpa using hd

/-- The path of a link to a renamed page ends with the name of that page. -/
theorem exists_numbered_of_renumbers {dir path new : Text} (hne : path ≠ [])
    (hname : (splitLast '/' path).2 ≠ Path.here ∧ (splitLast '/' path).2 ≠ Path.above)
    (h : Renumbers (Path.join dir path) new) :
    ∃ n, Path.leaf new = pad n ++ '-' :: (splitLast '/' path).2 ∧
      new = Path.join dir ((splitLast '/' path).1 ++ Path.leaf new) := by
  obtain ⟨hpath, hstem, hslash⟩ := splitLast_spec '/' path
  revert hname hpath hstem hslash
  generalize (splitLast '/' path).1 = stem, (splitLast '/' path).2 = name
  rintro ⟨hhere, habove⟩ rfl hstem hslash
  obtain ⟨stem', name', n, hstem', hname', -, hold, rfl⟩ := h
  have hnil : name ≠ [] := by
    rintro rfl
    rw [List.append_nil] at hold hne
    rcases hstem with rfl | ⟨t, rfl⟩
    · exact hne rfl
    · exact Path.join_ne_append dir t hname' hold
  have hn : Path.IsName name := ⟨hnil, hhere, habove, hslash⟩
  have hnum := isName_numbered hn n
  rw [Path.join_append dir hstem hn] at hold
  obtain ⟨rfl, rfl⟩ :=
    stem_append_inj (Path.isStem_joinStem dir stem) hstem' hslash hname'.slash hold
  have hleaf := Path.leaf_append (Path.isStem_joinStem dir stem) hnum.ne_nil hnum.slash
  exact ⟨n, hleaf, by rw [hleaf, Path.join_append dir hstem hnum]⟩

/-- **A link to a renamed page** gets the number in the last name of its path. -/
theorem follow_renamed {dir target new : Text} {table : Table Text Text}
    (hrel : isRelative target = true) (hname : EndsWithName target)
    (hget : table.get? (Path.join dir (splitAnchor target).1) = some new)
    (hren : Renumbers (Path.join dir (splitAnchor target).1) new) :
    splitAnchor (follow dir table target) =
        ((splitLast '/' (splitAnchor target).1).1 ++ Path.leaf new, (splitAnchor target).2) ∧
      (splitLast '/' ((splitLast '/' (splitAnchor target).1).1 ++ Path.leaf new)).1 =
        (splitLast '/' (splitAnchor target).1).1 ∧
      destination? dir (follow dir table target) = some new := by
  obtain ⟨-, -, hne⟩ := isRelative_iff.1 hrel
  obtain ⟨n, hleaf, hnew⟩ := exists_numbered_of_renumbers hne hname hren
  obtain ⟨hpath, hstem, hslash⟩ := splitLast_spec '/' (splitAnchor target).1
  obtain ⟨hhash, hanchor⟩ := splitAnchor_spec target
  have hsplit : splitAnchor (follow dir table target) =
      ((splitLast '/' (splitAnchor target).1).1 ++ Path.leaf new, (splitAnchor target).2) := by
    rw [follow_of_some hrel hget]
    refine splitAnchor_of_notMem ?_ hanchor
    rw [hpath] at hhash
    simp only [hleaf, List.mem_append, List.mem_cons, not_or] at hhash ⊢
    exact ⟨hhash.1, notMem_pad (by decide), by decide, hhash.2⟩
  refine ⟨hsplit, ?_, ?_⟩
  · rw [splitLast_append hstem]
    simpa [hleaf] using ⟨notMem_pad (by decide), hslash⟩
  · have hrel' : isRelative (follow dir table target) = true := by
      rw [follow_of_some hrel hget, hleaf, List.append_assoc, List.append_assoc]
      refine isRelative_numbered n (b := (splitLast '/' (splitAnchor target).1).2 ++
        (splitAnchor target).2) ?_ ?_
      · rwa [← List.append_assoc, ← hpath, splitAnchor_append]
      · rw [← List.append_assoc, ← List.append_assoc, List.append_assoc _ (pad n), ← hleaf,
          ← follow_of_some hrel hget, hsplit]
        simp [hleaf]
    rw [destination?, if_pos hrel', hsplit, ← hnew]

/-! ## Pages of a numbered site -/

variable {documents : List Document}

theorem mem_zip_number (hpaths : (documents.map Document.path).Nodup)
    {e : Document × Document} (h : e ∈ documents.zip (number documents)) :
    e.1 ∈ documents ∧ e.2 = renumber (renames documents) e.1 := by
  rw [number_eq_map hpaths, ← List.map_prod_left_eq_zip, List.mem_map] at h
  obtain ⟨d, hd, rfl⟩ := h
  exact ⟨hd, rfl⟩

theorem mem_zip_number_of_mem (hpaths : (documents.map Document.path).Nodup) {d : Document}
    (h : d ∈ documents) :
    (d, renumber (renames documents) d) ∈ documents.zip (number documents) := by
  rw [number_eq_map hpaths, ← List.map_prod_left_eq_zip]
  exact List.mem_map.2 ⟨d, h, rfl⟩

/-- A new path belongs to a page of the site, and that page is renamed. -/
theorem exists_renamed_of_get?_renames (hpaths : (documents.map Document.path).Nodup)
    {old new : Text} (h : (renames documents).get? old = some new) :
    ∃ e ∈ documents.zip (number documents), e.1.path = old ∧ e.2.outputPath ≠ e.1.path := by
  obtain ⟨d, hd, rfl⟩ := exists_of_get?_renames h
  refine ⟨_, mem_zip_number_of_mem hpaths hd, rfl, ?_⟩
  simpa [renumber, h] using (renumbers_of_get?_renames h).ne

theorem destination?_eq_some_iff {dir target path : Text} :
    destination? dir target = some path ↔
      isRelative target = true ∧ Path.join dir (splitAnchor target).1 = path := by
  simp [destination?]

theorem keepsTarget_follow (hpaths : (documents.map Document.path).Nodup)
    (hout : ∀ d ∈ documents, d.outputPath = d.path) {d : Document} (hd : d ∈ documents)
    (target : Text) :
    KeepsTarget (documents.zip (number documents)) d (renumber (renames documents) d) target
      (follow (Path.folder d.path) (renames documents) target) := by
  constructor
  · intro hstays
    cases hrel : isRelative target with
    | false => exact follow_of_not_isRelative hrel
    | true =>
      cases hget : (renames documents).get? (Path.join (Path.folder d.path) (splitAnchor target).1)
        with
      | none => exact follow_of_none hget
      | some new =>
        obtain ⟨e, he, hpath, hne⟩ := exists_renamed_of_get?_renames hpaths hget
        exact absurd (hstays e he (destination?_eq_some_iff.2 ⟨hrel, hpath.symm⟩)) hne
  · intro e he hdest hname
    obtain ⟨hmem, hnumber⟩ := mem_zip_number hpaths he
    obtain ⟨hrel, hpath⟩ := destination?_eq_some_iff.1 hdest
    rw [hnumber, folder_renumber (hout d hd)]
    rcases renumber_cases documents (hout e.1 hmem) with ⟨hget, heq⟩ | ⟨new, hget, heq, hren⟩
    · rw [follow_of_none (hpath ▸ hget), heq]
      exact ⟨hdest, rfl, rfl⟩
    · rw [← hpath] at hget hren
      obtain ⟨hsplit, hfolders, hdest'⟩ := follow_renamed hrel hname hget hren
      rw [heq, hsplit]
      exact ⟨hdest', hfolders, rfl⟩

theorem keepsLinks_renumber (hpaths : (documents.map Document.path).Nodup)
    (hout : ∀ d ∈ documents, d.outputPath = d.path) {d : Document} (hd : d ∈ documents) :
    KeepsLinks (documents.zip (number documents)) d (renumber (renames documents) d) where
  path := rfl
  source := source_scan linkTarget_prints.consumes _
  source' := source_scan linkTarget_prints.consumes _
  pieces := by
    have hscan : scan linkTarget (renumber (renames documents) d).updated =
        (scan linkTarget d.updated).map
          (Piece.relabel renderTarget (follow (Path.folder d.path) (renames documents))) :=
      scan_followLinks (fun _ _ h => renumbers_of_get?_renames h) d.updated
    rw [hscan, List.forall₂_map_right_iff, List.forall₂_same]
    intro piece hpiece
    cases piece with
    | plain c => exact .plain c
    | hit target source =>
      obtain ⟨-, rfl⟩ := linkTarget_prints.of_hit_mem hpiece
      exact .link (keepsTarget_follow hpaths hout hd target)

/-- **Links lead where they led.** Whatever the readmes of a site list, every page has the same
text outside its link targets, and every link leads to the page it led to. -/
theorem number_keeps_destinations (hpaths : (documents.map Document.path).Nodup)
    (hout : ∀ d ∈ documents, d.outputPath = d.path) :
    List.Forall₂ (KeepsLinks (documents.zip (number documents))) documents (number documents) := by
  have hkeeps : ∀ d ∈ documents, KeepsLinks (documents.zip (number documents)) d
      (renumber (renames documents) d) := fun d hd => keepsLinks_renumber hpaths hout hd
  generalize documents.zip (number documents) = pages at hkeeps ⊢
  rw [number_eq_map hpaths, List.forall₂_map_right_iff, List.forall₂_same]
  exact hkeeps

theorem guideSite_keeps_destinations :
    (guideSite.map Document.path).Nodup ∧ (∀ d ∈ guideSite, d.outputPath = d.path) ∧
      List.Forall₂ (KeepsLinks (guideSite.zip (number guideSite))) guideSite (number guideSite) := by
  have hpaths : (guideSite.map Document.path).Nodup := by decide +kernel
  have hout : ∀ d ∈ guideSite, d.outputPath = d.path := by decide +kernel
  exact ⟨hpaths, hout, number_keeps_destinations hpaths hout⟩

example : (number guideSite).map (fun d => String.ofList d.updated) =
    ["# Done\n",
      "- [Overview](01-overview.md)\n- [Setup](guide/02-setup.md)\n- [Done](03-done.md)\n",
      "Back: [o](../01-overview.md#intro)\n", "Next: [setup](./guide/02-setup.md)\n"] := by
  decide +kernel

end WikiTidy.Numbering
