import WikiTidy.Proofs.Link.Blob
import WikiTidy.Proofs.Text.Replacing

/-!
# Addresses of sections

An address that names a section is taken through the table entry by entry. No address can start
inside the head of another one (`Blob.IsValid.read?_eq_none`), so an entry looks at two things only:
whether what stands behind the revision starts with its name, and what is found further on.
`turnPlace` is the step that this makes of the part behind the revision.

**Theorem (`section_reaches_anchor_iff`).** A section reaches its anchor exactly when these steps lead
from its name to the anchor, whatever owner, repository and revision are. An entry that comes before
it and has the beginning of its name for a name gets hold of the address first; then the link ends in
that entry's anchor and the rest of the name. (`nestedTable_misses_anchor` is a table of this kind.)
-/

namespace WikiTidy.Link

open Text

variable {a b u v s t rest name anchor : Text} {blob : Blob} {anchors front back : Anchors}

/-! ## Slashes in a row -/

theorem slashes_infix_append (ha : '/' ∉ a) : ['/', '/'] <:+: a ++ b ↔ ['/', '/'] <:+: b := by
  induction a with
  | nil => rfl
  | cons c a ih =>
    rw [List.mem_cons, not_or] at ha
    rw [List.cons_append, List.infix_cons_iff, ih ha.2]
    simp [ha.1]

/-- A segment that is not empty keeps two slashes apart. -/
theorem not_slashes_segment (hne : a ≠ []) (ha : '/' ∉ a) (hb : ¬['/', '/'] <:+: '/' :: b) :
    ¬['/', '/'] <:+: '/' :: (a ++ '/' :: b) := by
  rw [List.infix_cons_iff, slashes_infix_append ha, not_or]
  refine ⟨?_, hb⟩
  obtain ⟨c, a, rfl⟩ := List.exists_cons_of_ne_nil hne
  rw [List.mem_cons, not_or] at ha
  simp [ha.1]

/-! ## Addresses do not overlap -/

/-- What every address starts with. -/
def scheme : Text := "https://".toList

/-- An address of a section of this name runs into no other one: the name has no slash, and ends with
a character that the start of an address does not have. -/
def IsApart (name : Text) : Prop := '/' ∉ name ∧ ∀ c ∈ name.getLast?, c ∉ scheme

instance (name : Text) : Decidable (IsApart name) :=
  decidable_of_iff ('/' ∉ name ∧ name.getLast?.all (· ∉ scheme) = true)
    (by simp [IsApart, Option.all_eq_true])

theorem isApart_nil : IsApart [] := ⟨by simp, by simp⟩

namespace Blob

/-- The address without the origin: the path by which a page of the site gives it. -/
def sitePath (blob : Blob) : Text :=
  '/' :: (blob.owner ++ '/' :: (blob.repository ++ '/' :: ("blob".toList ++
    '/' :: (blob.revision ++ ['/']))))

theorem render_eq_sitePath (blob : Blob) : blob.render = origin ++ blob.sitePath := by
  have hmarker : marker = '/' :: "blob".toList ++ ['/'] := by decide +kernel
  rw [render, root, sitePath, hmarker]
  simp only [List.append_assoc, List.cons_append, List.nil_append]

/-- The address behind the first slash of its scheme. -/
def tail (blob : Blob) : Text := '/' :: ("github.com".toList ++ blob.sitePath)

theorem render_eq_tail (blob : Blob) : blob.render = "https:/".toList ++ blob.tail := by
  have horigin : origin = "https:/".toList ++ '/' :: "github.com".toList := by decide +kernel
  rw [render_eq_sitePath, tail, horigin, List.append_assoc, List.cons_append]

theorem scheme_prefix_render (blob : Blob) : scheme <+: blob.render := by
  have hscheme : scheme = "https:/".toList ++ ['/'] := by decide +kernel
  rw [render_eq_tail, hscheme, List.prefix_append_right_inj]
  exact ⟨_, rfl⟩

namespace IsValid

/-- Behind its origin an address has no two slashes in a row. -/
theorem not_slashes_infix_sitePath (hblob : blob.IsValid) (hname : '/' ∉ name) :
    ¬['/', '/'] <:+: blob.sitePath ++ name := by
  have hdigits : '/' ∉ blob.revision := fun h => by
    simpa [isRevisionDigit_slash] using hblob.digits '/' h
  have hrevision : blob.revision ≠ [] := by
    intro h
    simpa [h] using hblob.length.1
  have hend : ¬['/', '/'] <:+: '/' :: name := by
    rw [List.infix_cons_iff, not_or]
    refine ⟨fun h => ?_, fun h => hname (h.subset (by simp))⟩
    obtain ⟨r, hr⟩ := h
    exact hname ((List.cons.inj hr).2 ▸ by simp)
  have hpath : blob.sitePath ++ name =
      '/' :: (blob.owner ++ '/' :: (blob.repository ++ '/' :: ("blob".toList ++
        '/' :: (blob.revision ++ '/' :: name)))) := by
    simp only [sitePath, List.append_assoc, List.cons_append, List.nil_append]
  rw [hpath]
  refine not_slashes_segment hblob.owner.1 hblob.owner.2 ?_
  refine not_slashes_segment hblob.repository.1 hblob.repository.2 ?_
  refine not_slashes_segment (by decide +kernel) (by decide +kernel) ?_
  exact not_slashes_segment hrevision hdigits hend

theorem not_slashes_infix_tail (hblob : blob.IsValid) (hname : '/' ∉ name) :
    ¬['/', '/'] <:+: blob.tail ++ name := by
  have hpath := hblob.not_slashes_infix_sitePath hname
  rw [sitePath, List.cons_append] at hpath
  rw [tail, sitePath, List.cons_append, List.append_assoc]
  exact not_slashes_segment (by decide +kernel) (by decide +kernel) hpath

/-- **Where an address has been read in part**, the start of another one does not follow. -/
theorem not_scheme_prefix (hblob : blob.IsValid) (hname : '/' ∉ name)
    (h : blob.render ++ name = v ++ u) (hv : v ≠ []) : ¬scheme <+: u := by
  rintro ⟨r, rfl⟩
  have hscheme : scheme = "https:".toList ++ ['/', '/'] := by decide +kernel
  rw [render_eq_tail, hscheme] at h
  have hstart : "https:/".toList <+: v ++ "https:".toList := by
    have hwhole : "https:/".toList <+: v ++ ("https:".toList ++ ['/', '/'] ++ r) :=
      ⟨blob.tail ++ name, by rw [← h, List.append_assoc]⟩
    have hpart : v ++ "https:".toList <+: v ++ ("https:".toList ++ ['/', '/'] ++ r) :=
      ⟨['/', '/'] ++ r, by simp⟩
    refine List.prefix_of_prefix_length_le hwhole hpart ?_
    have hlength := List.length_pos_iff.2 hv
    have hlong : "https:/".toList.length = 7 ∧ "https:".toList.length = 6 := by decide +kernel
    rw [List.length_append]
    omega
  obtain ⟨w, hw⟩ := hstart
  refine hblob.not_slashes_infix_tail hname ⟨w, r, ?_⟩
  have hcut : "https:/".toList ++ (w ++ ['/', '/'] ++ r) = "https:/".toList ++ (blob.tail ++ name) := by
    rw [← List.append_assoc "https:/".toList blob.tail name, h, ← List.append_assoc,
      ← List.append_assoc, hw]
    simp only [List.append_assoc]
  exact List.append_cancel_left hcut

theorem not_prefix_scheme (hblob : blob.IsValid) (hname : IsApart name)
    (h : blob.render ++ name = v ++ u) (hu : u ≠ []) : ¬u <+: scheme := by
  intro hhead
  by_cases hnil : name = []
  · -- The last characters of an address are too many to be passed over: digits and a slash.
    have hbehind : u <:+ blob.revision ++ ['/'] := by
      have hpart : u <:+ blob.render ++ name := ⟨v, h.symm⟩
      have hrevision : blob.revision ++ ['/'] <:+ blob.render ++ name :=
        ⟨blob.root ++ marker, by simp [render, hnil]⟩
      refine List.suffix_of_suffix_length_le hpart hrevision ?_
      have hlength := hhead.length_le
      have hscheme : scheme.length = 8 := by decide +kernel
      have hrevision := hblob.length.1
      rw [List.length_append, List.length_singleton]
      omega
    have hmem : 'h' ∈ u := by
      obtain ⟨c, u, rfl⟩ := List.exists_cons_of_ne_nil hu
      obtain ⟨r, hr⟩ := hhead
      have hscheme : scheme = 'h' :: "ttps://".toList := by decide +kernel
      rw [hscheme] at hr
      rw [(List.cons.inj hr).1]
      exact List.mem_cons_self
    rcases List.mem_append.1 (hbehind.subset hmem) with hdigit | hslash
    · exact absurd (hblob.digits 'h' hdigit) (by decide)
    · exact absurd (List.mem_singleton.1 hslash) (by decide)
  · have hlast : (blob.render ++ name).getLast? = u.getLast? := by
      rw [h, List.getLast?_append_of_ne_nil _ hu]
    obtain ⟨c, hc⟩ : ∃ c, name.getLast? = some c := ⟨_, List.getLast?_eq_some_getLast hnil⟩
    rw [List.getLast?_append_of_ne_nil _ hnil, hc] at hlast
    exact hname.2 c hc (hhead.subset (List.mem_of_getLast? hlast.symm))

/-- No address begins with what is left of an address of a section that was read in part. -/
theorem not_prefix_render {other : Blob} (hblob : blob.IsValid) (hname : IsApart name)
    (h : blob.render ++ name = v ++ u) (hv : v ≠ []) (hu : u ≠ []) (rest : Text) :
    ¬u <+: other.render ++ rest := by
  intro hhead
  have hother : scheme <+: other.render ++ rest :=
    (scheme_prefix_render other).trans (List.prefix_append _ rest)
  rcases List.prefix_or_prefix_of_prefix hother hhead with hlong | hshort
  · exact hblob.not_scheme_prefix hname.1 h hv hlong
  · exact hblob.not_prefix_scheme hname h hu hshort

/-- **No address starts inside the head of another one.** -/
theorem read?_eq_none (hblob : blob.IsValid) (h : blob.render = v ++ u) (hv : v ≠ []) (hu : u ≠ [])
    (rest : Text) : read? (u ++ rest) = none := by
  rw [Option.eq_none_iff_forall_ne_some]
  rintro ⟨other, r⟩ hread
  obtain ⟨-, hsource⟩ := read?_eq_some_iff.1 hread
  have hrender : blob.render ++ [] = v ++ u := by rw [List.append_nil, h]
  exact hblob.not_prefix_render isApart_nil hrender hv hu r ⟨rest, hsource⟩

end IsValid

end Blob

open Blob

/-! ## An address and the table -/

/-- What one entry makes of the part of an address behind the revision. -/
def turnPlace (name anchor place : Text) : Text :=
  match after? name place with
  | some rest => readmeAnchor ++ anchor ++ toAnchor name anchor rest
  | none => toAnchor name anchor place

/-- What a table makes of the part of an address behind the revision. -/
def turnPlaces (anchors : Anchors) (place : Text) : Text :=
  anchors.foldl (fun place (name, anchor) => turnPlace name anchor place) place

@[simp] theorem turnPlaces_nil (place : Text) : turnPlaces [] place = place := rfl

@[simp] theorem turnPlaces_cons (name anchor : Text) (anchors : Anchors) (place : Text) :
    turnPlaces ((name, anchor) :: anchors) place = turnPlaces anchors (turnPlace name anchor place) :=
  rfl

theorem turnPlaces_append (front back : Anchors) (place : Text) :
    turnPlaces (front ++ back) place = turnPlaces back (turnPlaces front place) :=
  List.foldl_append

theorem toAnchor_render (hblob : blob.IsValid) (name anchor place : Text) :
    toAnchor name anchor (blob.render ++ place) = blob.render ++ turnPlace name anchor place := by
  cases hplace : after? name place with
  | some rest =>
    obtain rfl := after?_eq_some_iff.1 hplace
    rw [toAnchor, ← List.append_assoc, (ofSection_prints name).replace_append hblob, turnPlace,
      hplace]
    simp only [toAnchor, List.append_assoc]
  | none =>
    rw [toAnchor, turnPlace, hplace]
    refine (ofSection_prints name).isLocal.replace_append_of_none fun u hu hsuffix => ?_
    obtain ⟨v, hv⟩ := hsuffix
    by_cases hnil : v = []
    · rw [hnil, List.nil_append] at hv
      simp [ofSection, hv, read?_eq_some_iff.2 ⟨hblob, rfl⟩, hplace]
    · simp [ofSection, hblob.read?_eq_none hv.symm hnil hu]

/-- **An address is taken through the table by the part behind its revision.** -/
theorem toAnchors_render (hblob : blob.IsValid) (anchors : Anchors) (place : Text) :
    toAnchors anchors (blob.render ++ place) = blob.render ++ turnPlaces anchors place := by
  induction anchors generalizing place with
  | nil => rfl
  | cons entry anchors ih =>
    obtain ⟨name, anchor⟩ := entry
    rw [toAnchors_cons, toAnchor_render hblob, ih, turnPlaces_cons]

/-- An entry of this name finds nothing behind the revision. -/
def Spares (name place : Text) : Prop := ¬name <+: place ∧ hits (ofSection name) place = 0

instance (name place : Text) : Decidable (Spares name place) :=
  inferInstanceAs (Decidable (_ ∧ _))

theorem Spares.turnPlace_eq (h : Spares name s) (anchor : Text) : turnPlace name anchor s = s := by
  have hhead : after? name s = none := by
    rw [Option.eq_none_iff_forall_ne_some]
    exact fun rest hrest => h.1 ⟨rest, (after?_eq_some_iff.1 hrest).symm⟩
  rw [turnPlace, hhead]
  exact replace_of_hits_eq_zero _ h.2

theorem turnPlaces_of_spares (h : ∀ e ∈ anchors, Spares e.1 s) : turnPlaces anchors s = s := by
  induction anchors with
  | nil => rfl
  | cons entry anchors ih =>
    obtain ⟨hentry, hanchors⟩ := List.forall_mem_cons.1 h
    rw [turnPlaces_cons, hentry.turnPlace_eq, ih hanchors]

/-- Of a table, one entry alone turns an address of the section `name ++ rest`: no entry before it
takes hold of the section, it finds nothing further on, and no entry behind it takes hold of the
anchor that it has put there. -/
def Decides (front : Anchors) (name anchor rest : Text) (back : Anchors) : Prop :=
  (∀ e ∈ front, Spares e.1 (name ++ rest)) ∧ hits (ofSection name) rest = 0 ∧
    ∀ e ∈ back, Spares e.1 (readmeAnchor ++ (anchor ++ rest))

instance (front : Anchors) (name anchor rest : Text) (back : Anchors) :
    Decidable (Decides front name anchor rest back) :=
  inferInstanceAs (Decidable (_ ∧ _ ∧ _))

/-- **The entry that decides** puts its anchor in the place of its name. -/
theorem Decides.turnPlaces_eq (h : Decides front name anchor rest back) :
    turnPlaces (front ++ (name, anchor) :: back) (name ++ rest) =
      readmeAnchor ++ (anchor ++ rest) := by
  obtain ⟨hfront, hrest, hback⟩ := h
  have hturn : turnPlace name anchor (name ++ rest) = readmeAnchor ++ (anchor ++ rest) := by
    rw [turnPlace, after?_append]
    show readmeAnchor ++ anchor ++ toAnchor name anchor rest = _
    rw [toAnchor, replace_of_hits_eq_zero _ hrest, List.append_assoc]
  rw [turnPlaces_append, turnPlaces_of_spares hfront, turnPlaces_cons, hturn,
    turnPlaces_of_spares hback]

/-- **When the link to a section reaches an anchor.** For every table it does exactly when the table
turns the name of the section into that anchor, at any revision of any repository. If one entry alone
decides, it does exactly when the anchor of this entry, with the rest of the name behind it, is that
anchor: with its own entry a section reaches its own anchor, and with an entry that has the beginning
of its name it reaches the anchor of that one, with the rest of its name behind it. -/
theorem section_reaches_anchor_iff (hblob : blob.IsValid) (anchors : Anchors) (title target : Text) :
    (toAnchors anchors (blob.render ++ title) = blob.render ++ (readmeAnchor ++ target) ↔
        turnPlaces anchors title = readmeAnchor ++ target) ∧
      ∀ front name anchor rest back, anchors = front ++ (name, anchor) :: back →
        title = name ++ rest → Decides front name anchor rest back →
        (toAnchors anchors (blob.render ++ title) = blob.render ++ (readmeAnchor ++ target) ↔
          anchor ++ rest = target) := by
  have hreach : toAnchors anchors (blob.render ++ title) = blob.render ++ (readmeAnchor ++ target) ↔
      turnPlaces anchors title = readmeAnchor ++ target := by
    rw [toAnchors_render hblob, List.append_cancel_left_eq]
  refine ⟨hreach, ?_⟩
  rintro front name anchor rest back rfl rfl hdecides
  rw [hreach, hdecides.turnPlaces_eq, List.append_cancel_left_eq]

/-- The head of an address. -/
def widget : Blob := ⟨"acme".toList, "widget".toList, "abc1234".toList⟩

theorem widget_isValid : widget.IsValid where
  owner := by decide +kernel
  repository := by decide +kernel
  digits := List.all_eq_true.1 (by decide +kernel)
  length := by decide +kernel

theorem wslSection_reaches_anchor :
    widget.IsValid ∧
      Decides (Anchors.standard.take 3) "WSL.exe Section".toList "wslexe-issues".toList []
        (Anchors.standard.drop 4) ∧
      toAnchors Anchors.standard (widget.render ++ "WSL.exe Section".toList) =
        widget.render ++ (readmeAnchor ++ "wslexe-issues".toList) :=
  have hdecides : Decides (Anchors.standard.take 3) "WSL.exe Section".toList
      "wslexe-issues".toList [] (Anchors.standard.drop 4) := by decide +kernel
  ⟨widget_isValid, hdecides,
    ((section_reaches_anchor_iff widget_isValid Anchors.standard _ _).2 _ _ _ _ _
      (by decide +kernel) (by decide +kernel) hdecides).2 (by decide +kernel)⟩

/-- The sections that every readme has, and one whose name starts like that of another. -/
def nestedTable : Anchors :=
  Anchors.overlay Anchors.standard
    [("Networking Section (WSL)".toList, "networking-wsl".toList)]

/-- The link to the longer name ends in the anchor of the shorter one. -/
theorem nestedTable_misses_anchor :
    ("Networking Section (WSL)".toList, "networking-wsl".toList) ∈ nestedTable ∧
      toAnchors nestedTable (widget.render ++ "Networking Section (WSL)".toList) ≠
        widget.render ++ (readmeAnchor ++ "networking-wsl".toList) := by
  decide +kernel

end WikiTidy.Link
