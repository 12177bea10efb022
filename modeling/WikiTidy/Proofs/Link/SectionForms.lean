import WikiTidy.Proofs.Link.Sections
import WikiTidy.Proofs.Link.SiteLines

/-!
# The forms of a link to a section

A page gives a section by its address or by a path of the site, in an inline link `](…)` or in a
definition `[label]: …` at the start of a line. `turnLinks` makes paths absolute, puts anchors in the
place of sections and drops revisions.

**Theorem (`section_links_by_form`).** The address of a section leads to its anchor, by itself and
in an inline link, and so does the path of a section in a definition. An inline link with the path
of a section stays as it is.

A path ends at the first blank, and every section has one in its name. In a definition anything may
follow the path, so the origin comes before the path and the address is complete. In an inline link
the closing parenthesis has to follow at once, so no link is seen (`hits_inline_eq_zero`). What is
left has no scheme, and without one no address is read (`hits_anywhere_eq_zero`).
-/

namespace WikiTidy.Link

open Text Blob

variable {a b s t u v w name anchor label lead lines more path place front page target : Text}
  {c : Char} {blob : Blob} {anchors : Anchors}

/-- The passes over the links of a page. -/
def turnLinks (anchors : Anchors) (page : Text) : Text :=
  dropRevisions (toAnchors anchors (absolute page))

/-! ## Links that are not seen -/

/-- **No inline link goes over a blank.** -/
theorem hits_inline_eq_zero (ha : ')' ∉ a) (hb : ']' ∉ b) : hits inline (a ++ ' ' :: b) = 0 := by
  induction a with
  | nil => exact hits_inline_of_notMem (by simp [hb])
  | cons d a ih =>
    have hnone : inline true (d :: (a ++ ' ' :: b)) = none := by
      rcases inline_stopsAt (by decide : isBlank ' ' = true) (d :: a) with hnone | ⟨path, y, hread⟩
      · exact hnone b
      · -- The link would end in front of the blank, where nothing is closed.
        obtain ⟨hsource, -⟩ := inline_eq_some (hread [])
        rw [← List.append_assoc] at hsource
        rw [List.append_cancel_right hsource] at ha
        simp at ha
    rw [List.cons_append, inline_isLocal.hits_cons hnone]
    exact ih (List.not_mem_of_not_mem_cons ha)

theorem definition_cons_eq_none (hblank : isBlank c = false) (hc : c ≠ '[') :
    definition true (c :: s) = none := by
  simp [definition, definitionHead?, hblank, after?, Ne.symm hc]

/-- A line without links is left alone. -/
theorem absolute_of_line (hinline : hits inline s = 0) (hdefinition : definition true s = none)
    (hline : ∀ c ∈ s, isLineEnd c = false) : absolute s = s := by
  rw [absolute, replace_of_hits_eq_zero _ hinline]
  exact definition_isOfLines.replace_of_none hdefinition hline

/-! ## Addresses of the site -/

theorem slashName?_append (hname : name ≠ [] ∧ ∀ c ∈ name, isNameChar c = true) (r : Text) :
    slashName? ('/' :: (name ++ '/' :: r)) = some ('/' :: name, '/' :: r) := by
  have hslash : isNameChar '/' = false := by decide
  simp [slashName?, after?, run?_append (r := '/' :: r) hname.1 hname.2 (by simpa using hslash)]

/-- A path is read up to the first character that it cannot hold. -/
theorem repositoryPath?_append {owner repository : Text}
    (howner : owner ≠ [] ∧ ∀ c ∈ owner, isNameChar c = true)
    (hrepository : repository ≠ [] ∧ ∀ c ∈ repository, isNameChar c = true)
    (hmore : ∀ c ∈ more, isPathChar c = true) (hr : ∀ c ∈ r.head?, isPathChar c = false) :
    repositoryPath? ('/' :: (owner ++ '/' :: (repository ++ '/' :: (more ++ r)))) =
      some ('/' :: (owner ++ '/' :: (repository ++ '/' :: more)), r) := by
  simp [repositoryPath?, slashName?_append howner, slashName?_append hrepository,
    takeWhile_append_stop hmore hr, dropWhile_append_stop hmore hr]

/-- The owner and the repository can stand in a path of the site. -/
structure Blob.IsOnSite (blob : Blob) : Prop extends blob.IsValid where
  names : ∀ c ∈ blob.owner ++ blob.repository, isNameChar c = true

theorem notMem_of_isPathChar (h : ∀ c ∈ path, isPathChar c = true) : ')' ∉ path :=
  fun hmem => absurd (h ')' hmem) (by decide)

theorem isPathChar_of_isRevisionDigit (h : isRevisionDigit c = true) : isPathChar c = true := by
  simp only [isRevisionDigit, isDigit, Bool.or_eq_true, Bool.and_eq_true, decide_eq_true_eq] at h
  have hcode : 48 ≤ c.toNat ∧ c.toNat ≤ 57 ∨ 97 ≤ c.toNat ∧ c.toNat ≤ 102 := h
  have hclose : c ≠ ')' := by
    rintro rfl
    exact absurd hcode (by decide)
  have hblank : isBlank c = false := by
    simp only [isBlank, Bool.or_eq_false_iff, Bool.and_eq_false_iff, decide_eq_false_iff_not,
      beq_eq_false_iff_ne]
    omega
  simp [isPathChar, hclose, hblank]

namespace Blob.IsOnSite

theorem isPathChar_revision (h : blob.IsOnSite) :
    ∀ c ∈ "blob".toList ++ '/' :: (blob.revision ++ ['/']), isPathChar c = true := by
  have hslash : isPathChar '/' = true := by decide
  have hblob : ∀ c ∈ "blob".toList, isPathChar c = true := List.all_eq_true.1 (by decide +kernel)
  have hdigits : ∀ c ∈ blob.revision, isPathChar c = true :=
    fun c hc => isPathChar_of_isRevisionDigit (h.digits c hc)
  rw [List.forall_mem_append, List.forall_mem_cons, List.forall_mem_append, List.forall_mem_singleton]
  exact ⟨hblob, hslash, hdigits, hslash⟩

theorem isPathChar_sitePath (h : blob.IsOnSite) : ∀ c ∈ blob.sitePath, isPathChar c = true := by
  have hslash : isPathChar '/' = true := by decide
  have hnames := h.names
  rw [List.forall_mem_append] at hnames
  rw [sitePath, List.forall_mem_cons, List.forall_mem_append, List.forall_mem_cons,
    List.forall_mem_append, List.forall_mem_cons]
  exact ⟨hslash, fun c hc => isPathChar_of_isNameChar (hnames.1 c hc), hslash,
    fun c hc => isPathChar_of_isNameChar (hnames.2 c hc), hslash, h.isPathChar_revision⟩

theorem isPathChar_render (h : blob.IsOnSite) : ∀ c ∈ blob.render, isPathChar c = true := by
  rw [render_eq_sitePath, List.forall_mem_append]
  exact ⟨List.all_eq_true.1 (by decide +kernel), h.isPathChar_sitePath⟩

/-- **The path of an address is read with the beginning of the name behind it.** -/
theorem repositoryPath?_sitePath (h : blob.IsOnSite) (name : Text) :
    repositoryPath? (blob.sitePath ++ name) =
      some (blob.sitePath ++ name.takeWhile isPathChar, name.dropWhile isPathChar) := by
  have hnames := h.names
  rw [List.forall_mem_append] at hnames
  have hmore : ∀ c ∈ ("blob".toList ++ '/' :: (blob.revision ++ ['/'])) ++ name.takeWhile isPathChar,
      isPathChar c = true := by
    rw [List.forall_mem_append]
    exact ⟨h.isPathChar_revision, List.all_eq_true.1 List.all_takeWhile⟩
  have hstop : ∀ c ∈ (name.dropWhile isPathChar).head?, isPathChar c = false := by
    intro c hc
    have hnot := List.head?_dropWhile_not isPathChar name
    rw [hc] at hnot
    simpa using hnot
  have hread := repositoryPath?_append ⟨h.owner.1, hnames.1⟩ ⟨h.repository.1, hnames.2⟩ hmore hstop
  rw [List.append_assoc, List.takeWhile_append_dropWhile] at hread
  simpa [sitePath] using hread

end Blob.IsOnSite

/-! ## Sections and paths -/

/-- A name that a section can have in a link: its address runs into no other one, it holds a blank,
and it neither opens nor closes a part of a link. -/
def IsTitle (name : Text) : Prop :=
  IsApart name ∧ ' ' ∈ name ∧ ∀ c ∈ name, c ∉ ['[', ']', ')'] ∧ isLineEnd c = false

instance (name : Text) : Decidable (IsTitle name) :=
  decidable_of_iff (IsApart name ∧ ' ' ∈ name ∧
      name.all (fun c => c ∉ ['[', ']', ')'] ∧ isLineEnd c = false) = true)
    (by simp [IsTitle])

theorem IsTitle.hits_inline_eq_zero (hname : IsTitle name) (ha : ')' ∉ a) (hb : ']' ∉ b) :
    hits inline (a ++ (name ++ b)) = 0 := by
  obtain ⟨-, hblank, hplain⟩ := hname
  obtain ⟨n, m, rfl⟩ := List.append_of_mem hblank
  have hclose : ')' ∉ a ++ n := by
    intro h
    rcases List.mem_append.1 h with h | h
    · exact ha h
    · exact (hplain ')' (by simp [h])).1 (by decide)
  have hopen : ']' ∉ m ++ b := by
    intro h
    rcases List.mem_append.1 h with h | h
    · exact (hplain ']' (by simp [h])).1 (by decide)
    · exact hb h
  simpa using Link.hits_inline_eq_zero hclose hopen

theorem absolute_render (hblob : blob.IsOnSite) (hname : IsTitle name) :
    absolute (blob.render ++ name) = blob.render ++ name := by
  have hrender := hblob.isPathChar_render
  have hinline := hname.hits_inline_eq_zero (b := []) (notMem_of_isPathChar hrender) (by simp)
  rw [List.append_nil] at hinline
  refine absolute_of_line hinline ?_ ?_
  · have horigin : origin = 'h' :: "ttps://github.com".toList := by decide +kernel
    rw [render_eq_sitePath, horigin]
    exact definition_cons_eq_none (by decide) (by decide)
  · rw [List.forall_mem_append]
    exact ⟨fun d hd => isLineEnd_of_isPathChar (hrender d hd), fun d hd => (hname.2.2 d hd).2⟩

/-- The beginning of a line in which no link has ended yet, and which does not start with a path. -/
structure IsLead (lead : Text) : Prop where
  line : ∀ c ∈ lead, isLineEnd c = false
  bracket : ']' ∉ lead
  head : (lead.dropWhile isBlank).head? ≠ some '/'

theorem absolute_lead (hlead : IsLead lead) : absolute lead = lead :=
  absolute_of_line (hits_inline_of_notMem hlead.bracket)
    (definition_eq_none_of_notMem hlead.bracket) hlead.line

theorem hits_inline_linkTo (hlead : IsLead lead) (hname : IsTitle name)
    (hpath : ∀ c ∈ path, isPathChar c = true) :
    hits inline (lead ++ linkTo (path ++ name)) = 0 := by
  have hclose : ')' ∉ [']', '('] ++ path := by
    rw [List.mem_append, not_or]
    exact ⟨by decide, notMem_of_isPathChar hpath⟩
  have hlink := hname.hits_inline_eq_zero (b := [')']) hclose (by decide)
  rw [inline_isLocal.hits_append_of_notMem inline_startsWith hlead.bracket, linkTo]
  simpa using hlink

/-- **An inline link to a section stays**, whether it has an address or a path. -/
theorem absolute_linkTo (hlead : IsLead lead) (hname : IsTitle name)
    (hpath : ∀ c ∈ path, isPathChar c = true) :
    absolute (lead ++ linkTo (path ++ name)) = lead ++ linkTo (path ++ name) := by
  refine absolute_of_line (hits_inline_linkTo hlead hname hpath)
    (definition_eq_none_of_link hlead.bracket _) ?_
  have hopen : isLineEnd ']' = false ∧ isLineEnd '(' = false ∧ isLineEnd ')' = false := by decide
  have haddress : ∀ d ∈ path ++ name, isLineEnd d = false := by
    rw [List.forall_mem_append]
    exact ⟨fun d hd => isLineEnd_of_isPathChar (hpath d hd), fun d hd => (hname.2.2 d hd).2⟩
  rw [linkTo, List.forall_mem_append, List.forall_mem_append, List.forall_mem_append]
  exact ⟨hlead.line, by simpa using ⟨hopen.1, hopen.2.1⟩, haddress, by simpa using hopen.2.2⟩

theorem hits_inline_heading (hblob : blob.IsOnSite) (hname : IsTitle name) (hlabel : ']' ∉ label) :
    hits inline (heading label ++ (blob.sitePath ++ name)) = 0 := by
  have hclose : ')' ∉ [']', ':', ' '] ++ blob.sitePath := by
    rw [List.mem_append, not_or]
    exact ⟨by decide, notMem_of_isPathChar hblob.isPathChar_sitePath⟩
  have hopen : ']' ∉ '[' :: label := by simp [hlabel]
  have hbehind := hname.hits_inline_eq_zero (b := []) hclose (by simp)
  rw [← inline_isLocal.hits_append_of_notMem inline_startsWith hopen] at hbehind
  simpa [heading] using hbehind

/-- **In a definition the path of a section becomes its address.** -/
theorem absolute_heading (hblob : blob.IsOnSite) (hname : IsTitle name)
    (hlabel : label ≠ [] ∧ ']' ∉ label) :
    absolute (heading label ++ (blob.sitePath ++ name)) =
      heading label ++ (blob.render ++ name) := by
  have hread : definition true (heading label ++ (blob.sitePath ++ name)) =
      some ((heading label, blob.sitePath ++ name.takeWhile isPathChar),
        name.dropWhile isPathChar) :=
    definition_eq_some_iff.2 ⟨_, heading_isHead hlabel, rfl, hblob.repositoryPath?_sitePath name⟩
  have hrest : ∀ d ∈ name.dropWhile isPathChar, isLineEnd d = false :=
    fun d hd => (hname.2.2 d ((List.dropWhile_sublist _).subset hd)).2
  rw [absolute_eq, inlined, replace_of_hits_eq_zero _ (hits_inline_heading hblob hname hlabel.2),
    replace_of_definition hread, definition_isOfLines.render_scanFrom hrest, render_eq_sitePath]
  simp only [List.append_assoc, List.takeWhile_append_dropWhile]

/-! ## Links among other text -/

theorem toAnchor_append_render (hname : IsApart name) (anchor front : Text) (blob : Blob)
    (rest : Text) :
    toAnchor name anchor (front ++ (blob.render ++ rest)) =
      toAnchor name anchor front ++ toAnchor name anchor (blob.render ++ rest) :=
  (ofSection_prints name).replace_append_of_apart
    (fun _ _ _ hvalid hprint hv hx => hvalid.not_prefix_render hname hprint hv hx rest) front

theorem toAnchors_append_render (hanchors : ∀ e ∈ anchors, IsApart e.1) (hblob : blob.IsValid)
    (front place : Text) :
    toAnchors anchors (front ++ (blob.render ++ place)) =
      toAnchors anchors front ++ (blob.render ++ turnPlaces anchors place) := by
  induction anchors generalizing front place with
  | nil => rfl
  | cons entry anchors ih =>
    obtain ⟨name, anchor⟩ := entry
    obtain ⟨hname, hanchors⟩ := List.forall_mem_cons.1 hanchors
    rw [toAnchors_cons, toAnchor_append_render hname, toAnchor_render hblob, ih hanchors,
      toAnchors_cons, turnPlaces_cons]

theorem dropRevisions_render (hblob : blob.IsValid) (rest : Text) :
    dropRevisions (blob.render ++ rest) = blob.root ++ '/' :: dropRevisions rest := by
  rw [dropRevisions, anywhere_prints.replace_append hblob, List.append_assoc]
  rfl

theorem dropRevisions_append_render (hblob : blob.IsValid) (front rest : Text) :
    dropRevisions (front ++ (blob.render ++ rest)) =
      dropRevisions front ++ (blob.root ++ '/' :: dropRevisions rest) := by
  have hcut : dropRevisions (front ++ (blob.render ++ rest)) =
      dropRevisions front ++ dropRevisions (blob.render ++ rest) := by
    refine anywhere_prints.replace_append_of_apart (fun other v x hother hprint hv hx => ?_) front
    rw [← List.append_nil other.render] at hprint
    exact hother.not_prefix_render isApart_nil hprint hv hx rest
  rw [hcut, dropRevisions_render hblob]

/-- **Without two slashes in a row there is no address.** -/
theorem hits_anywhere_eq_zero (h : ¬['/', '/'] <:+: s) : hits anywhere s = 0 := by
  rw [hits_eq_zero_iff anywhere_prints.isLocal]
  intro t ht
  rw [Option.eq_none_iff_forall_ne_some]
  rintro ⟨blob, r⟩ hread
  obtain ⟨-, rfl⟩ := read?_eq_some_iff.1 hread
  have hscheme : ['/', '/'] <:+: scheme := ⟨"https:".toList, [], by decide +kernel⟩
  have hrender : scheme <:+: blob.render ++ r :=
    ((scheme_prefix_render blob).trans (List.prefix_append _ r)).isInfix
  exact h ((hscheme.trans hrender).trans ht.isInfix)

theorem not_slashes_of_notMem (h : '/' ∉ s) : ¬['/', '/'] <:+: s :=
  fun hslashes => h (hslashes.subset (by simp))

/-- A text without an address is left alone by both passes over addresses. -/
theorem dropRevisions_toAnchors_of_not_slashes (anchors : Anchors) (h : ¬['/', '/'] <:+: s) :
    dropRevisions (toAnchors anchors s) = s := by
  have hhits := hits_anywhere_eq_zero h
  rw [toAnchors_of_hits_eq_zero anchors hhits, dropRevisions_of_hits_eq_zero hhits]

/-- What does not go on with the name of a section, and has no slash, stays behind an address. -/
theorem not_prefix_of_notMem (h : blob.render ++ name = v ++ u) (hu : u ≠ []) (ht : '/' ∉ t)
    (hname : ∀ d ∈ t.head?, d ∉ name) : ¬u <+: t := by
  intro hhead
  obtain ⟨d, u, rfl⟩ := List.exists_cons_of_ne_nil hu
  have hslash : '/' ∉ d :: u := fun hmem => ht (hhead.subset hmem)
  obtain ⟨r, rfl⟩ := hhead
  have hd : d ∉ name := hname d rfl
  rcases List.append_eq_append_iff.1 h with ⟨e, -, rfl⟩ | ⟨e, hrender, htail⟩
  · simp at hd
  · rcases List.eq_nil_or_concat' e with rfl | ⟨e, x, rfl⟩
    · rw [List.nil_append] at htail
      simp [← htail] at hd
    · -- The head of an address ends with a slash.
      have hlast := congrArg List.getLast? hrender
      rw [← List.append_assoc, List.getLast?_concat, render, List.getLast?_concat] at hlast
      rw [← Option.some.inj hlast] at htail
      rw [htail] at hslash
      simp at hslash

/-- A text without an address stays behind any other one. -/
theorem dropRevisions_toAnchors_append (ht : '/' ∉ t)
    (hanchors : ∀ e ∈ anchors, ∀ d ∈ t.head?, d ∉ e.1) (front : Text) :
    dropRevisions (toAnchors anchors (front ++ t)) =
      dropRevisions (toAnchors anchors front) ++ t := by
  have hhits := hits_anywhere_eq_zero (not_slashes_of_notMem ht)
  have htoAnchors : toAnchors anchors (front ++ t) = toAnchors anchors front ++ t := by
    induction anchors generalizing front with
    | nil => rfl
    | cons entry anchors ih =>
      obtain ⟨name, anchor⟩ := entry
      obtain ⟨hname, hanchors⟩ := List.forall_mem_cons.1 hanchors
      have hcut : toAnchor name anchor (front ++ t) =
          toAnchor name anchor front ++ toAnchor name anchor t :=
        (ofSection_prints name).replace_append_of_apart
          (fun _ _ _ _ hprint _ hx => not_prefix_of_notMem hprint hx ht hname) front
      have hkept : toAnchor name anchor t = t := toAnchors_of_hits_eq_zero [(name, anchor)] hhits
      rw [toAnchors_cons, hcut, hkept, ih hanchors, toAnchors_cons]
  have hcut : dropRevisions (toAnchors anchors front ++ t) =
      dropRevisions (toAnchors anchors front) ++ dropRevisions t := by
    refine anywhere_prints.replace_append_of_apart (fun blob v x _ hprint _ hx => ?_) _
    rw [← List.append_nil blob.render] at hprint
    exact not_prefix_of_notMem hprint hx ht (by simp)
  rw [htoAnchors, hcut, dropRevisions_of_hits_eq_zero hhits]

/-- **An address that becomes one of an anchor** loses its revision, and the text in front of it is
what it becomes by itself. -/
theorem turnLinks_eq (hanchors : ∀ e ∈ anchors, IsApart e.1) (hblob : blob.IsValid)
    (hpage : absolute page = front ++ (blob.render ++ place))
    (hplace : turnPlaces anchors place = readmeAnchor ++ target) (htarget : '/' ∉ target) :
    turnLinks anchors page =
      dropRevisions (toAnchors anchors front) ++ (blob.root ++ '/' :: (readmeAnchor ++ target)) := by
  have hreadme : '/' ∉ readmeAnchor ++ target := by
    rw [List.mem_append, not_or]
    exact ⟨by decide +kernel, htarget⟩
  have hkept : dropRevisions (readmeAnchor ++ target) = readmeAnchor ++ target :=
    dropRevisions_of_hits_eq_zero (hits_anywhere_eq_zero (not_slashes_of_notMem hreadme))
  rw [turnLinks, hpage, toAnchors_append_render hanchors hblob, hplace,
    dropRevisions_append_render hblob, hkept]

/-! ## The sections that every readme has -/

theorem standard_isTitle : ∀ e ∈ Anchors.standard, IsTitle e.1 := by decide +kernel

theorem standard_isApart : ∀ e ∈ Anchors.standard, IsApart e.1 :=
  fun e he => (standard_isTitle e he).1

/-- A section of the table is turned into its anchor, by itself and in an inline link. -/
theorem turnPlaces_standard : ∀ e ∈ Anchors.standard, '/' ∉ e.2 ∧
    turnPlaces Anchors.standard e.1 = readmeAnchor ++ e.2 ∧
      turnPlaces Anchors.standard (e.1 ++ [')']) = readmeAnchor ++ (e.2 ++ [')']) := by
  decide +kernel

theorem dropRevisions_toAnchors_standard (ht : '/' ∉ t) (hhead : ∀ d ∈ t.head?, d ∈ ['[', ']'])
    (front : Text) :
    dropRevisions (toAnchors Anchors.standard (front ++ t)) =
      dropRevisions (toAnchors Anchors.standard front) ++ t := by
  refine dropRevisions_toAnchors_append ht (fun e he d hd hmem => ?_) front
  exact ((standard_isTitle e he).2.2 d hmem).1 (List.mem_append_left [')'] (hhead d hd))

/-! ## Form by form -/

theorem turnLinks_render (hblob : blob.IsOnSite) (hentry : (name, anchor) ∈ Anchors.standard) :
    turnLinks Anchors.standard (blob.render ++ name) =
      blob.root ++ '/' :: (readmeAnchor ++ anchor) := by
  obtain ⟨hanchor, hplace, -⟩ := turnPlaces_standard _ hentry
  have hpage : absolute (blob.render ++ name) = [] ++ (blob.render ++ name) :=
    absolute_render hblob (standard_isTitle _ hentry)
  rw [turnLinks_eq standard_isApart hblob.toIsValid hpage hplace hanchor,
    dropRevisions_toAnchors_of_not_slashes _ (by decide +kernel), List.nil_append]

theorem turnLinks_linkTo (hblob : blob.IsOnSite) (hentry : (name, anchor) ∈ Anchors.standard)
    (hlines : IsLines lines) (hlead : IsLead lead) :
    turnLinks Anchors.standard (lines ++ (lead ++ linkTo (blob.render ++ name))) =
      turnLinks Anchors.standard (lines ++ lead) ++
        linkTo (blob.root ++ '/' :: (readmeAnchor ++ anchor)) := by
  obtain ⟨hanchor, -, hplace⟩ := turnPlaces_standard _ hentry
  have htitle : IsTitle name := standard_isTitle _ hentry
  have hrender := hblob.isPathChar_render
  have hshort : '/' ∉ anchor ++ [')'] := by
    rw [List.mem_append, not_or]
    exact ⟨hanchor, by decide⟩
  have hfront : absolute (lines ++ lead) = absolute lines ++ lead := by
    rw [absolute_append hlines (opensLine_of_notMem hlead.head hlead.bracket)
      (hits_inline_of_notMem hlead.bracket), absolute_lead hlead]
  have hpage : absolute (lines ++ (lead ++ linkTo (blob.render ++ name))) =
      absolute (lines ++ lead) ++ [']', '('] ++ (blob.render ++ (name ++ [')'])) := by
    rw [absolute_append hlines (opensLine_link hlead.head hlead.bracket _)
      (hits_inline_linkTo hlead htitle hrender), absolute_linkTo hlead htitle hrender, hfront, linkTo]
    simp only [List.append_assoc]
  rw [turnLinks_eq standard_isApart hblob.toIsValid hpage hplace hshort,
    dropRevisions_toAnchors_standard (by decide) (by simp), turnLinks, linkTo]
  simp only [List.append_assoc, List.cons_append]

theorem turnLinks_heading (hblob : blob.IsOnSite) (hentry : (name, anchor) ∈ Anchors.standard)
    (hlines : IsLines lines) (hlabel : label ≠ [] ∧ ']' ∉ label) :
    turnLinks Anchors.standard (lines ++ (heading label ++ (blob.sitePath ++ name))) =
      dropRevisions (toAnchors Anchors.standard (absolute lines ++ heading label)) ++
        (blob.root ++ '/' :: (readmeAnchor ++ anchor)) := by
  obtain ⟨hanchor, hplace, -⟩ := turnPlaces_standard _ hentry
  have htitle : IsTitle name := standard_isTitle _ hentry
  have hslash : isBlank '/' = false := by decide
  have hopens : OpensLine (heading label ++ (blob.sitePath ++ name)) :=
    opensLine_heading hlabel (by simpa [sitePath] using hslash)
  have hpage : absolute (lines ++ (heading label ++ (blob.sitePath ++ name))) =
      absolute lines ++ heading label ++ (blob.render ++ name) := by
    rw [absolute_append hlines hopens (hits_inline_heading hblob htitle hlabel.2),
      absolute_heading hblob htitle hlabel, List.append_assoc]
  rw [turnLinks_eq standard_isApart hblob.toIsValid hpage hplace hanchor]

theorem turnLinks_linkTo_sitePath (hblob : blob.IsOnSite) (htitle : IsTitle name)
    (anchors : Anchors) :
    turnLinks anchors (linkTo (blob.sitePath ++ name)) = linkTo (blob.sitePath ++ name) := by
  have hnil : IsLead [] := ⟨by simp, by simp, by simp⟩
  have hkept : absolute (linkTo (blob.sitePath ++ name)) = linkTo (blob.sitePath ++ name) :=
    absolute_linkTo hnil htitle hblob.isPathChar_sitePath
  have hrest : '/' ∉ name ++ [')'] := by
    rw [List.mem_append, not_or]
    exact ⟨htitle.1.1, by decide⟩
  -- Without the origin the path has no scheme.
  have hslashes : ¬['/', '/'] <:+: linkTo (blob.sitePath ++ name) := by
    rw [linkTo, slashes_infix_append (by decide), List.append_assoc]
    exact hblob.toIsValid.not_slashes_infix_sitePath hrest
  rw [turnLinks, hkept, dropRevisions_toAnchors_of_not_slashes _ hslashes]

/-- **What becomes of a link to a section**, form by form. The address leads to the anchor, by itself
and in an inline link. In a definition the path of the section does so too; what the head of the
definition becomes is what the lines in front of it and the head become, and the head stays if its
label has no slash. In an inline link the path of the section stays as it is. -/
theorem section_links_by_form (hblob : blob.IsOnSite) (hentry : (name, anchor) ∈ Anchors.standard)
    (hlines : IsLines lines) (hlead : IsLead lead) (hlabel : label ≠ [] ∧ ']' ∉ label) :
    turnLinks Anchors.standard (blob.render ++ name) = blob.root ++ '/' :: (readmeAnchor ++ anchor) ∧
      turnLinks Anchors.standard (lines ++ (lead ++ linkTo (blob.render ++ name))) =
        turnLinks Anchors.standard (lines ++ lead) ++
          linkTo (blob.root ++ '/' :: (readmeAnchor ++ anchor)) ∧
      turnLinks Anchors.standard (lines ++ (heading label ++ (blob.sitePath ++ name))) =
        dropRevisions (toAnchors Anchors.standard (absolute lines ++ heading label)) ++
          (blob.root ++ '/' :: (readmeAnchor ++ anchor)) ∧
      ('/' ∉ label →
        turnLinks Anchors.standard (lines ++ (heading label ++ (blob.sitePath ++ name))) =
          turnLinks Anchors.standard lines ++
            (heading label ++ (blob.root ++ '/' :: (readmeAnchor ++ anchor)))) ∧
      turnLinks Anchors.standard (linkTo (blob.sitePath ++ name)) =
        linkTo (blob.sitePath ++ name) := by
  have hdefinition := turnLinks_heading hblob hentry hlines hlabel
  refine ⟨turnLinks_render hblob hentry, turnLinks_linkTo hblob hentry hlines hlead, hdefinition,
    fun hslash => ?_, turnLinks_linkTo_sitePath hblob (standard_isTitle _ hentry) _⟩
  have hhead : '/' ∉ heading label := by simp [heading, hslash]
  rw [hdefinition, dropRevisions_toAnchors_standard hhead (by simp [heading]), turnLinks,
    List.append_assoc]

theorem widget_isOnSite : widget.IsOnSite where
  toIsValid := widget_isValid
  names := List.all_eq_true.1 (by decide +kernel)

theorem networkingSection_by_form :
    widget.IsOnSite ∧
      ("Networking Section".toList, "networking-configuration".toList) ∈ Anchors.standard ∧
      IsLines "# A\n".toList ∧ IsLead "- [Network".toList ∧
      ("1".toList ≠ [] ∧ ']' ∉ "1".toList) ∧
      turnLinks Anchors.standard ("# A\n".toList ++
          (heading "1".toList ++ (widget.sitePath ++ "Networking Section".toList))) =
        turnLinks Anchors.standard "# A\n".toList ++ (heading "1".toList ++
          (widget.root ++ '/' :: (readmeAnchor ++ "networking-configuration".toList))) :=
  have hentry : ("Networking Section".toList, "networking-configuration".toList) ∈
      Anchors.standard := by decide +kernel
  have hlines : IsLines "# A\n".toList := Or.inr ⟨"# A".toList, '\n', by decide +kernel, by decide⟩
  have hline : ∀ c ∈ "- [Network".toList, (!isLineEnd c) = true :=
    List.all_eq_true.1 (by decide +kernel)
  have hlead : IsLead "- [Network".toList :=
    ⟨by simpa only [Bool.not_eq_true'] using hline, by decide +kernel, by decide +kernel⟩
  have hlabel : "1".toList ≠ [] ∧ ']' ∉ "1".toList := by decide +kernel
  ⟨widget_isOnSite, hentry, hlines, hlead, hlabel,
    (section_links_by_form widget_isOnSite hentry hlines hlead hlabel).2.2.2.1 (by decide +kernel)⟩

/-- An inline link with the path of a section is not turned into a link to its anchor. -/
theorem networkingSection_misses_anchor :
    ("Networking Section".toList, "networking-configuration".toList) ∈ Anchors.standard ∧
      turnLinks Anchors.standard (linkTo (widget.sitePath ++ "Networking Section".toList)) ≠
        linkTo (widget.root ++ '/' :: (readmeAnchor ++ "networking-configuration".toList)) := by
  decide +kernel

end WikiTidy.Link
