import Mathlib.Data.List.Forall2
import WikiTidy.Proofs.Numbering.Priority

/-!
# Other spellings of an entry

An entry of an index can be written in many ways that lead to one page, `a.md` and `./a.md` say.

**Theorem (`number_respelled`).** When one target of a readme is written in another way, all pages
but the one that it leads to go where they went before. That page does so, too, if the spelling is
hidden (`IsHidden`): the page has a number already, or a readme that comes before this one lists it,
or the index has the same number for it as before. When no two pages have one path, it does so only
then.

The number of a page is the last place of the spelling that its first entry has. So it stays the
same (`KeepsNumber`) when the first entry stands in front of the one that changes and its spelling
is not concerned, or when the entry that changes is the first and neither spelling comes again
behind it. A page that is listed once keeps its number, the page of `spelledSite` does not.

The proof runs the two sites side by side (`Alike`): sorting keeps their readmes aligned, and two
aligned readmes have the same number for every other page.
-/

namespace WikiTidy.Numbering

open Text

variable {documents documents' front back : List Document} {d d' r r' : Document}
  {dir path target target' : Text} {targets before after : List Text} {n : Nat}

/-! ## One entry of an index -/

/-- The readme `r'` has the index of `r`, but with another target for the same page at one place. -/
structure Respells (r r' : Document) (before : List Text) (target target' : Text)
    (after : List Text) : Prop where
  readme : Path.leaf r.path = readmeName
  ne : target' ≠ target
  path_eq : r'.path = r.path
  outputPath_eq : r'.outputPath = r.outputPath
  entries_eq : entries r.updated = before ++ target :: after
  entries_eq' : entries r'.updated = before ++ target' :: after
  join_eq : Path.join (Path.folder r.path) target' = Path.join (Path.folder r.path) target

theorem number?_replace (h : Path.join dir target ≠ path) (h' : Path.join dir target' ≠ path) :
    number? dir path (before ++ target' :: after) =
      number? dir path (before ++ target :: after) := by
  have hfind : (before ++ target' :: after).find? (fun t => Path.join dir t = path) =
      (before ++ target :: after).find? fun t => Path.join dir t = path := by
    simp [List.find?_append, h, h']
  rw [number?, number?, hfind]
  cases hother : (before ++ target :: after).find? fun t => Path.join dir t = path with
  | none => rfl
  | some other =>
    have hleads : Path.join dir other = path := by simpa using List.find?_some hother
    have hne : target ≠ other := fun heq => h (heq ▸ hleads)
    have hne' : target' ≠ other := fun heq => h' (heq ▸ hleads)
    simp [lastPlace_append_cons, hne, hne']

/-- The number of the page that both spellings lead to does not depend on the spelling. Either the
first entry of the page stands in front, and its last place is not at the entry that changes, or the
entry that changes is the first one, and its own last place in both spellings. -/
def KeepsNumber (dir path : Text) (before : List Text) (target target' : Text)
    (after : List Text) : Prop :=
  match before.find? fun t => Path.join dir t = path with
  | some first => first ∈ after ∨ first ≠ target ∧ first ≠ target'
  | none => target ∉ after ∧ target' ∉ after

theorem lastPlace_inj (h : target ∈ targets) (h' : target' ∈ targets)
    (heq : lastPlace target targets = lastPlace target' targets) : target = target' := by
  have hlt := List.idxOf_lt_length_of_mem (List.mem_reverse.2 h)
  have hlt' := List.idxOf_lt_length_of_mem (List.mem_reverse.2 h')
  rw [List.length_reverse] at hlt hlt'
  simp only [lastPlace] at heq
  exact (List.idxOf_inj (List.mem_reverse.2 h)).1 (by omega)

theorem lastPlace_pos (h : target ∈ targets) : 0 < lastPlace target targets := by
  have hlt := List.idxOf_lt_length_of_mem (List.mem_reverse.2 h)
  rw [List.length_reverse] at hlt
  exact Nat.sub_pos_of_lt hlt

/-- **When another spelling keeps the number.** -/
theorem number?_replace_eq_iff (hne : target' ≠ target) (h : Path.join dir target = path)
    (h' : Path.join dir target' = path) :
    number? dir path (before ++ target' :: after) = number? dir path (before ++ target :: after) ↔
      KeepsNumber dir path before target target' after := by
  rw [KeepsNumber]
  cases hfirst : before.find? fun t => Path.join dir t = path with
  | some first =>
    -- The first entry is the same one, so its last place decides.
    simp only [number?, List.find?_append, hfirst, Option.some_or, Option.map_some, Option.some_inj,
      lastPlace_append_cons]
    have hle : lastPlace first before ≤ before.length := Nat.sub_le _ _
    by_cases hmem : first ∈ after
    · simp [hmem]
    · rw [if_neg hmem, if_neg hmem]
      by_cases hold : target = first
      · have hnew : target' ≠ first := hold ▸ hne
        rw [if_pos hold, if_neg hnew]
        exact iff_of_false (by omega) (by simp [hmem, hold])
      · by_cases hnew : target' = first
        · rw [if_neg hold, if_pos hnew]
          exact iff_of_false (by omega) (by simp [hmem, hnew])
        · rw [if_neg hold, if_neg hnew]
          exact iff_of_true rfl (Or.inr ⟨Ne.symm hold, Ne.symm hnew⟩)
  | none =>
    -- The entry that changes is the first one.
    simp only [number?, List.find?_append, hfirst, Option.none_or, List.find?_cons, h, h',
      decide_true, Option.map_some, Option.some_inj, lastPlace_append_cons, if_true]
    by_cases hmem : target ∈ after
    · have hpos := lastPlace_pos hmem
      rw [if_pos hmem]
      refine iff_of_false (fun heq => ?_) fun hno => hno.1 hmem
      by_cases hmem' : target' ∈ after
      · rw [if_pos hmem'] at heq
        exact hne (lastPlace_inj hmem' hmem (by omega))
      · rw [if_neg hmem'] at heq
        omega
    · rw [if_neg hmem]
      by_cases hmem' : target' ∈ after
      · have hpos := lastPlace_pos hmem'
        rw [if_pos hmem']
        exact iff_of_false (by omega) fun hno => hno.2 hmem'
      · rw [if_neg hmem']
        exact iff_of_true rfl ⟨hmem, hmem'⟩

/-- A page that is listed once keeps its number. -/
theorem keepsNumber_of_once (h : Path.join dir target = path) (h' : Path.join dir target' = path)
    (honce : ∀ t ∈ before ++ after, Path.join dir t ≠ path) :
    KeepsNumber dir path before target target' after := by
  have hfirst : before.find? (fun t => Path.join dir t = path) = none := by
    simpa using fun t ht => honce t (List.mem_append_left _ ht)
  rw [KeepsNumber, hfirst]
  exact ⟨fun hmem => honce target (List.mem_append_right _ hmem) h,
    fun hmem => honce target' (List.mem_append_right _ hmem) h'⟩

namespace Respells

theorem number?_eq (h : Respells r r' before target target' after)
    (hne : Path.join (Path.folder r.path) target ≠ path) :
    number? (Path.folder r'.path) path (entries r'.updated) =
      number? (Path.folder r.path) path (entries r.updated) := by
  have hne' : Path.join (Path.folder r.path) target' ≠ path := h.join_eq ▸ hne
  rw [h.entries_eq, h.entries_eq', h.path_eq, number?_replace hne hne']

theorem number?_eq_iff (h : Respells r r' before target target' after)
    (hpath : Path.join (Path.folder r.path) target = path) :
    number? (Path.folder r'.path) path (entries r'.updated) =
        number? (Path.folder r.path) path (entries r.updated) ↔
      KeepsNumber (Path.folder r.path) path before target target' after := by
  rw [h.entries_eq, h.entries_eq', h.path_eq]
  exact number?_replace_eq_iff h.ne hpath (h.join_eq.trans hpath)

theorem precedes_iff (h : Respells r r' before target target' after) :
    Precedes d r' ↔ Precedes d r := by
  rw [Precedes, Precedes, h.path_eq]

theorem exists_isNumber (h : Respells r r' before target target' after) :
    (∃ n, IsNumber (Path.folder r.path) (Path.join (Path.folder r.path) target)
      (entries r.updated) n) ∧
    ∃ n, IsNumber (Path.folder r.path) (Path.join (Path.folder r.path) target)
      (entries r'.updated) n := by
  simp only [← number?_eq_some_iff, ← Option.ne_none_iff_exists', ne_eq, number?_eq_none_iff,
    not_forall, not_not, exists_prop]
  refine ⟨⟨target, ?_, rfl⟩, target', ?_, h.join_eq⟩
  · simp [h.entries_eq]
  · simp [h.entries_eq']

end Respells

/-! ## Two sites side by side -/

/-- A document and the one in its place, which is the same or the readme in the other spelling. -/
def Alike (r r' d d' : Document) : Prop := d' = d ∨ d = r ∧ d' = r'

theorem forall₂_alike (r r' : Document) (front back : List Document) :
    List.Forall₂ (Alike r r') (front ++ r :: back) (front ++ r' :: back) := by
  have hsame : ∀ ds, List.Forall₂ (Alike r r') ds ds :=
    fun ds => List.forall₂_same.2 fun _ _ => Or.inl rfl
  exact List.rel_append (hsame front) (.cons (Or.inr ⟨rfl, rfl⟩) (hsame back))

theorem Respells.alike_path (h : Respells r r' before target target' after) (hd : Alike r r' d d') :
    d'.path = d.path ∧ d'.outputPath = d.outputPath := by
  rcases hd with rfl | ⟨rfl, rfl⟩
  · exact ⟨rfl, rfl⟩
  · exact ⟨h.path_eq, h.outputPath_eq⟩

theorem mem_append_cons_of_ne {α : Type} {a b c : α} {as bs : List α} (h : c ∈ as ++ a :: bs)
    (hne : c ≠ a) : c ∈ as ++ b :: bs := by
  have hmem : c ∈ as ∨ c ∈ bs := by simpa [hne] using h
  rcases hmem with hmem | hmem <;> simp [hmem]

theorem Respells.forall₂_readmes (h : Respells r r' before target target' after)
    (hdocs : List.Forall₂ (Alike r r') documents documents') :
    List.Forall₂ (Alike r r') (readmes documents) (readmes documents') := by
  refine forall₂_sortBy ?_ (List.rel_filter ?_ hdocs)
  · intro a a' b b' ha hb
    rw [asksBefore, asksBefore, (h.alike_path ha).1, (h.alike_path hb).1]
  · intro d d' hd
    simp only [(h.alike_path hd).1]

theorem findSome?_eq_of_forall₂ {α β : Type} {R : α → α → Prop} {f g : α → Option β}
    {as bs : List α} (h : List.Forall₂ R as bs) (hfg : ∀ a b, R a b → g b = f a) :
    bs.findSome? g = as.findSome? f := by
  induction h with
  | nil => rfl
  | cons hab _ ih => rw [List.findSome?_cons, List.findSome?_cons, hfg _ _ hab, ih]

/-- The readmes in front of `r` are the same on both sites, so what one of them says counts. -/
theorem findSome?_eq_of_precedes {β : Type} {f : Document → Option β} {rs rs' : List Document}
    {q : Document} (h : List.Forall₂ (Alike r r') rs rs')
    (hsorted : rs.Pairwise fun a b => ¬Precedes b a) (hq : q ∈ rs) (hfq : f q ≠ none)
    (hqr : Precedes q r) : rs'.findSome? f = rs.findSome? f := by
  induction h with
  | nil => cases hq
  | @cons a a' rs rs' ha _ ih =>
    obtain ⟨hfirst, htail⟩ := List.pairwise_cons.1 hsorted
    rcases ha with rfl | ⟨rfl, -⟩
    · cases hfa : f a' with
      | some b => simp [hfa]
      | none =>
        have hne : q ≠ a' := fun heq => hfq (heq ▸ hfa)
        simpa [hfa] using ih htail ((List.mem_cons.1 hq).resolve_left hne)
    · -- The readme that comes before `r` would stand behind it.
      rcases List.mem_cons.1 hq with rfl | hq
      · exact absurd hqr (not_precedes_self q)
      · exact absurd hqr (hfirst q hq)

/-! ## Where the pages go -/

theorem any_path_eq (h : List.Forall₂ (fun d d' => d'.path = d.path) documents documents')
    (path : Text) :
    (documents'.any fun d => d.path = path) = documents.any fun d => d.path = path := by
  induction h with
  | nil => rfl
  | cons hd _ ih => rw [List.any_cons, List.any_cons, hd, ih]

/-- Documents that only differ in their texts go to the same paths, as far as the new paths of the
two sites agree. -/
theorem forall₂_place {table table' : Table Text Text}
    (h : List.Forall₂ (fun d d' => d'.path = d.path ∧ d'.outputPath = d.outputPath)
      documents documents') :
    List.Forall₂ (fun d d' => d'.path = d.path ∧
        (table'.get? d.path = table.get? d.path → d'.outputPath = d.outputPath))
      (place table documents) (place table' documents') := by
  induction h with
  | nil => exact .nil
  | @cons d d' ds ds' hd hds ih =>
    obtain ⟨hpath, hout⟩ := hd
    rw [place_cons, place_cons]
    refine .cons ⟨hpath, fun hget => ?_⟩ ih
    simp only [hpath, hout, hget, any_path_eq (hds.imp fun _ _ h => h.1)]

theorem forall₂_number (h : Respells r r' before target target' after)
    (hdocs : List.Forall₂ (Alike r r') documents documents') :
    List.Forall₂ (fun d d' => d'.path = d.path ∧
        ((renames documents').get? d.path = (renames documents).get? d.path →
          d'.outputPath = d.outputPath))
      (number documents) (number documents') := by
  rw [number_eq_place, number_eq_place]
  refine forall₂_place ?_
  rw [List.forall₂_map_left_iff, List.forall₂_map_right_iff]
  exact hdocs.imp fun _ _ hd => h.alike_path hd

/-- The spelling does not show in the new path of the page: it has a number, or a readme in front of
`r` decides, or `r` keeps the number that it has for the page. -/
def IsHidden (documents : List Document) (r : Document) (path : Text) (before : List Text)
    (target target' : Text) (after : List Text) : Prop :=
  isNumbered (Path.leaf path) = true ∨
  (∃ q ∈ documents, Path.leaf q.path = readmeName ∧ Precedes q r ∧
    ∃ n, IsNumber (Path.folder q.path) path (entries q.updated) n) ∨
  KeepsNumber (Path.folder r.path) path before target target' after

namespace Respells

/-- The first number of a page is the same if the readme has one number in both spellings. -/
theorem findSome?_number? (h : Respells r r' before target target' after)
    (hdocs : List.Forall₂ (Alike r r') documents documents')
    (heq : number? (Path.folder r'.path) path (entries r'.updated) =
      number? (Path.folder r.path) path (entries r.updated)) :
    ((readmes documents').findSome? fun q =>
        number? (Path.folder q.path) path (entries q.updated)) =
      (readmes documents).findSome? fun q =>
        number? (Path.folder q.path) path (entries q.updated) := by
  refine findSome?_eq_of_forall₂ (h.forall₂_readmes hdocs) fun d d' hd => ?_
  rcases hd with rfl | ⟨rfl, rfl⟩
  · rfl
  · exact heq

/-- **The new paths of the two sites agree**, but for the page of the entry if that shows. -/
theorem get?_renames_eq (h : Respells r r' before target target' after)
    (hdocs : List.Forall₂ (Alike r r') documents documents')
    (hpath : path ≠ Path.join (Path.folder r.path) target ∨
      IsHidden documents r path before target target' after) :
    (renames documents').get? path = (renames documents).get? path := by
  have hsite := any_path_eq (hdocs.imp fun _ _ hd => (h.alike_path hd).1) path
  rw [Numbering.get?_renames_eq, Numbering.get?_renames_eq, hsite]
  by_cases hne : Path.join (Path.folder r.path) target = path
  · rcases hpath.resolve_left (not_not.2 hne.symm) with
      hnumber | ⟨q, hq, hreadme, hqr, n, hn⟩ | hkeeps
    · simp [hnumber]
    · have hsome : number? (Path.folder q.path) path (entries q.updated) ≠ none := by
        simp [number?_eq_some_iff.2 hn]
      rw [findSome?_eq_of_precedes (h.forall₂_readmes hdocs) (pairwise_not_readmes documents)
        (mem_readmes.2 ⟨hq, hreadme⟩) hsome hqr]
    · rw [h.findSome?_number? hdocs ((h.number?_eq_iff hne).2 hkeeps)]
  · rw [h.findSome?_number? hdocs (h.number?_eq hne)]

/-- **A spelling that is not hidden shows**: the two sites give the page different numbers. -/
theorem isHidden_of_outputPath_eq (h : Respells r r' before target target' after)
    (hpaths : ((front ++ r :: back).map Document.path).Nodup)
    (hd : d ∈ front ++ r :: back) (hpath : Path.join (Path.folder r.path) target = d.path)
    (hout : (renumber (renames (front ++ r' :: back)) d).outputPath =
      (renumber (renames (front ++ r :: back)) d).outputPath) :
    IsHidden (front ++ r :: back) r d.path before target target' after := by
  by_contra hshown
  rw [IsHidden, not_or, not_or, Bool.not_eq_true] at hshown
  obtain ⟨hnumber, hearlier, hdiffer⟩ := hshown
  obtain ⟨⟨m, hm⟩, m', hm'⟩ := h.exists_isNumber
  rw [hpath] at hm hm'
  -- No readme before this one lists the page, so it is the first one on both sites.
  have hfirst : IsFirst (front ++ r :: back) r d := by
    refine isFirst_of_not_precedes hpaths (by simp) (lists_iff.2 ⟨h.readme, m, hm⟩) ?_
    intro q hq hlists hqr
    exact hearlier ⟨q, hq, hlists.1, hqr, (lists_iff.1 hlists).2⟩
  have hpaths' : ((front ++ r' :: back).map Document.path).Nodup := by
    simpa [h.path_eq] using hpaths
  obtain ⟨d', hd', hdpath⟩ : ∃ d' ∈ front ++ r' :: back, d'.path = d.path := by
    by_cases heq : d = r
    · exact ⟨r', by simp, heq ▸ h.path_eq⟩
    · exact ⟨d, mem_append_cons_of_ne hd heq, rfl⟩
  have hfirst' : IsFirst (front ++ r' :: back) r' d' := by
    refine isFirst_of_not_precedes hpaths' (by simp)
      (lists_iff.2 ⟨h.path_eq ▸ h.readme, m', by rwa [h.path_eq, hdpath]⟩) ?_
    intro q hq hlists hqr
    by_cases heq : q = r'
    · exact not_precedes_self q (heq ▸ hqr)
    · exact hearlier ⟨q, mem_append_cons_of_ne hq heq, hlists.1, h.precedes_iff.1 hqr,
        hdpath ▸ (lists_iff.1 hlists).2⟩
  obtain ⟨n, hn, hnew⟩ := hfirst.get?_renames hpaths hd hnumber
  obtain ⟨n', hn', hnew'⟩ := hfirst'.get?_renames hpaths' hd' (hdpath ▸ hnumber)
  rw [hdpath] at hn' hnew'
  rw [h.path_eq] at hn'
  have hsame : numbered n' d.path = numbered n d.path := by
    simpa [renumber, hnew, hnew'] using hout
  obtain rfl := numbered_inj hsame
  refine hdiffer ((h.number?_eq_iff hpath).1 ?_)
  rw [h.path_eq, number?_eq_some_iff.2 hn, number?_eq_some_iff.2 hn']

end Respells

/-- **Where the pages go when one entry is spelled in another way.** All other pages go where they
went, and so does the page of the entry when the spelling is hidden. An entry that is the only one
for its page hides it. When no two pages have one path, the page of the entry goes elsewhere unless
the spelling is hidden. -/
theorem number_respelled (front back : List Document)
    (h : Respells r r' before target target' after)
    (hpath : Path.join (Path.folder r.path) target = path) :
    List.Forall₂ (fun d d' => d'.path = d.path ∧
        (d.path ≠ path ∨ IsHidden (front ++ r :: back) r path before target target' after →
          d'.outputPath = d.outputPath))
      (number (front ++ r :: back)) (number (front ++ r' :: back)) ∧
    ((∀ t ∈ before ++ after, Path.join (Path.folder r.path) t ≠ path) →
      IsHidden (front ++ r :: back) r path before target target' after) ∧
    (((front ++ r :: back).map Document.path).Nodup → (∃ d ∈ front ++ r :: back, d.path = path) →
      (number (front ++ r' :: back)).map Document.outputPath =
        (number (front ++ r :: back)).map Document.outputPath →
      IsHidden (front ++ r :: back) r path before target target' after) := by
  have hdocs := forall₂_alike r r' front back
  refine ⟨?_, fun honce => Or.inr (Or.inr ?_), ?_⟩
  · refine (forall₂_number h hdocs).imp fun d d' hd => ⟨hd.1, fun hor => hd.2 ?_⟩
    refine h.get?_renames_eq hdocs ?_
    by_cases heq : d.path = path
    · exact Or.inr (heq ▸ hor.resolve_left (not_not.2 heq))
    · exact Or.inl (hpath ▸ heq)
  · exact keepsNumber_of_once hpath (h.join_eq.trans hpath) honce
  · rintro hpaths ⟨d, hd, rfl⟩ hout
    have hpaths' : ((front ++ r' :: back).map Document.path).Nodup := by
      simpa [h.path_eq] using hpaths
    have hread : ∀ table, (front ++ r' :: back).map (fun d => (renumber table d).outputPath) =
        (front ++ r :: back).map fun d => (renumber table d).outputPath := by
      simp [renumber, h.path_eq, h.outputPath_eq]
    rw [number_eq_map hpaths, number_eq_map hpaths', List.map_map, List.map_map] at hout
    have hsame := List.map_inj_left.1 ((hread _).symm.trans hout) d hd
    exact h.isHidden_of_outputPath_eq hpaths hd hpath hsame

/-- The lower readme of `manualSite`, with its second entry in this spelling. -/
def manualReadme (spelling : String) : Document :=
  pageOf "guide/README.md" ("- [Done](../03-done.md)\n- [B](" ++ spelling ++ ")\n")

theorem manualSite_respelled :
    manualSite = manualSite.take 3 ++ manualReadme "b.md" :: manualSite.drop 4 ∧
      Respells (manualReadme "b.md") (manualReadme "./b.md") ["../03-done.md".toList] "b.md".toList
        "./b.md".toList [] ∧
      Path.join (Path.folder (manualReadme "b.md").path) "b.md".toList = "guide/b.md".toList ∧
      IsHidden manualSite (manualReadme "b.md") "guide/b.md".toList ["../03-done.md".toList]
        "b.md".toList "./b.md".toList [] ∧
      List.Forall₂ (fun d d' => d'.path = d.path ∧ d'.outputPath = d.outputPath) (number manualSite)
        (number (manualSite.take 3 ++ manualReadme "./b.md" :: manualSite.drop 4)) := by
  have hsite : manualSite = manualSite.take 3 ++ manualReadme "b.md" :: manualSite.drop 4 := by
    decide +kernel
  have hrespells : Respells (manualReadme "b.md") (manualReadme "./b.md")
      ["../03-done.md".toList] "b.md".toList "./b.md".toList [] :=
    ⟨by decide +kernel, by decide, rfl, rfl, by decide +kernel, by decide +kernel,
      by decide +kernel⟩
  have hpath : Path.join (Path.folder (manualReadme "b.md").path) "b.md".toList =
      "guide/b.md".toList := by decide +kernel
  obtain ⟨hplaces, honce, -⟩ :=
    number_respelled (manualSite.take 3) (manualSite.drop 4) hrespells hpath
  rw [← hsite] at hplaces honce
  have hhidden := honce (by decide +kernel)
  exact ⟨hsite, hrespells, hpath, hhidden, hplaces.imp fun d d' hd => ⟨hd.1, hd.2 (Or.inr hhidden)⟩⟩

/-- A readme that lists a page twice, the second time in this spelling. -/
def twiceReadme (folder spelling : String) : Document :=
  pageOf (folder ++ "/README.md") ("- [A](a.md)\n- [A](" ++ spelling ++ ")\n")

/-- A site with two folders. The readmes list their page twice, and the second readme may spell the
second entry in another way. -/
def spelledSite (spelling : String) : List Document :=
  [twiceReadme "x" "a.md", pageOf "x/a.md" "# A\n", twiceReadme "y" spelling,
    pageOf "y/a.md" "# A\n"]

/-- **The spelling of an entry can show**, also when all paths are clean and pairwise different. -/
theorem spelledSite_spelling_shows :
    ((spelledSite "a.md").map Document.path).Nodup ∧
      (∀ d ∈ spelledSite "a.md", Path.clean d.path = d.path ∧ d.outputPath = d.path) ∧
      Respells (twiceReadme "y" "a.md") (twiceReadme "y" "./a.md") ["a.md".toList] "a.md".toList
        "./a.md".toList [] ∧
      (number (spelledSite "./a.md")).map Document.outputPath ≠
        (number (spelledSite "a.md")).map Document.outputPath := by
  refine ⟨by decide +kernel, by decide +kernel, ?_, by decide +kernel⟩
  exact ⟨by decide +kernel, by decide, rfl, rfl, by decide +kernel, by decide +kernel,
    by decide +kernel⟩

end WikiTidy.Numbering
