import WikiTidy.Page.Normalize
import WikiTidy.Proofs.Diagram.Counts
import WikiTidy.Proofs.Link.Blob
import WikiTidy.Proofs.Link.Site
import WikiTidy.Proofs.Page.Cleanup

/-!
# Pages that normalizing leaves alone

**Theorem (`normalize_twice_eq_iff`).** A second run of all passes leaves a page as it is exactly
when no pass finds anything in it (`Settled`).

One direction goes pass by pass. For the other, no pass may undo what a pass before it did
(`settled_of_normalize_eq`). This is shown by counting: when the page comes back, every count comes
back, and a count that falls at one pass and rises at none shows that this pass found nothing. Four
marks are enough, in this order.

* `noise`: line feeds and exclamation marks fall with lines above the heading and with copy markers.
* `revisionSlash`: slashes before a `b` fall with revisions. Where a section was turned into an
  anchor there is a revision left to drop, so then no section was found either.
* `prompt`: the letter `v` and carriage returns fall with prompt lines. Anchors may hold that
  letter, so it has to be known that no anchor was written.
* `pathSlash`: slashes between a blank, a parenthesis or a colon and a name fall with paths. Without
  its revision an address may end in such a slash, so it has to be known that none was dropped.

A page in its normal form need not be settled, since a pass can leave something to find behind
(`nestedRevisions_twice_ne`).
-/

namespace WikiTidy.Page

open Text Lines Link Diagram

variable {page : Text} {anchors : Anchors} {n : Nat}

/-- No pass finds anything in the page. -/
structure Settled (page : Text) : Prop where
  preamble : hasPreamble page = false
  copied : hits copied page = 0
  prompts : ∀ piece ∈ pieces page, isLoose piece = false
  inlines : hits inline page = 0
  definitions : hits definition page = 0
  revisions : hits Blob.anywhere page = 0
  diagrams : ∀ block ∈ Block.ofLines (ofText page), block.mapBody repair = block

/-! ## Marks for the passes -/

/-- Falls with lines above the heading and with copy markers. -/
def noise : Mark := Mark.ofChars ['\n', '!']

theorem seesRemarks_noise : SeesRemarks noise := seesRemarks_ofChars (by decide +kernel)

theorem seesPaths_noise : SeesPaths noise 0 := seesPaths_ofChars (by decide +kernel)

theorem seesRevisions_noise : SeesRevisions noise 0 := seesRevisions_ofChars (by decide +kernel)

/-- Falls with revisions. -/
def revisionSlash : Mark := ⟨fun _ => false, fun _ y => y == 'b'⟩

theorem seesRemarks_revisionSlash : SeesRemarks revisionSlash where
  list := ⟨by decide +kernel, fun _ _ => rfl⟩
  link := ⟨by decide +kernel, fun _ _ => rfl⟩
  space := rfl
  before x h := by cases h
  behind x y h := h
  carriage x h := by cases h

theorem seesPaths_revisionSlash : SeesPaths revisionSlash 0 where
  address := by decide +kernel
  path x y _ _ := Nat.le_refl _

theorem seesRevisions_revisionSlash : SeesRevisions revisionSlash 1 where
  left _ _ _ := rfl
  readme := ⟨⟨by decide +kernel, fun _ _ => rfl⟩, rfl⟩
  revision := Nat.le_refl _

/-- Falls with prompt lines and carriage returns. -/
def prompt : Mark := Mark.ofChars ['v', '\r']

theorem seesRemarks_prompt : SeesRemarks prompt := seesRemarks_ofChars (by decide +kernel)

theorem seesPaths_prompt : SeesPaths prompt 0 := seesPaths_ofChars (by decide +kernel)

/-- Falls with paths. -/
def pathSlash : Mark := ⟨fun _ => false, fun x y => isPathStart x && isNameChar y⟩

theorem seesRemarks_pathSlash : SeesRemarks pathSlash where
  list := ⟨by decide +kernel, fun _ _ => rfl⟩
  link := ⟨by decide +kernel, fun _ _ => rfl⟩
  space := rfl
  before x h := by
    have hx : isPathStart x = true := (Bool.and_eq_true_iff.1 h).1
    exact ⟨Bool.and_eq_true_iff.2 ⟨hx, by decide⟩, Bool.and_eq_true_iff.2 ⟨hx, by decide⟩⟩
  behind x y h := by cases h
  carriage x h := by
    have hfeed : isNameChar '\n' = true := (Bool.and_eq_true_iff.1 h).2
    exact absurd hfeed (by decide)

theorem seesPaths_pathSlash : SeesPaths pathSlash 1 where
  address := by decide +kernel
  path x y hx hy := by simp [pathSlash, hx, hy, show isPathStart 'm' = false by decide]

/-- No anchor holds a line feed, an exclamation mark or a slash. -/
def AreSimple (anchors : Anchors) : Prop := ∀ e ∈ anchors, '\n' ∉ e.2 ∧ '!' ∉ e.2 ∧ '/' ∉ e.2

instance : Decidable (AreSimple anchors) :=
  inferInstanceAs (Decidable (∀ e ∈ anchors, '\n' ∉ e.2 ∧ '!' ∉ e.2 ∧ '/' ∉ e.2))

theorem AreSimple.isSilent_noise (h : AreSimple anchors) : ∀ e ∈ anchors, noise.IsSilent e.2 := by
  intro e he
  obtain ⟨hfeed, hbang, hslash⟩ := h e he
  refine ⟨hslash, fun c hc => ?_⟩
  have hc₁ : c ≠ '\n' := ne_of_mem_of_not_mem hc hfeed
  have hc₂ : c ≠ '!' := ne_of_mem_of_not_mem hc hbang
  simp [noise, Mark.ofChars, hc₁, hc₂]

theorem AreSimple.isSilent_revisionSlash (h : AreSimple anchors) :
    ∀ e ∈ anchors, revisionSlash.IsSilent e.2 :=
  fun e he => ⟨(h e he).2.2, fun _ _ => rfl⟩

/-! ## Pass by pass -/

/-- A mark that sees neither paths nor anchors falls with revisions alone. -/
theorem count_links_le {m : Mark} (hpaths : SeesPaths m 0) (hrevisions : SeesRevisions m n)
    (hanchors : ∀ e ∈ anchors, m.IsSilent e.2) (page : Text) :
    m.count (dropRevisions (toAnchors anchors (absolute page))) +
      n * hits Blob.anywhere (toAnchors anchors (absolute page)) ≤ m.count page := by
  have habsolute := count_absolute_le hpaths page
  have hto := count_toAnchors_le hrevisions hanchors (absolute page)
  have hdrop := count_dropRevisions_le hrevisions (toAnchors anchors (absolute page))
  omega

theorem noise_of_eq (hanchors : AreSimple anchors) (h : normalize anchors page = page) :
    hasPreamble page = false ∧ hits copied (dropPreamble page) = 0 := by
  have hpreamble : noise.count (dropPreamble page) + (hasPreamble page).toNat ≤ noise.count page :=
    count_dropPreamble_le rfl (fun _ hx => hx) page
  have hcopied : noise.count (dropCopied (dropPreamble page)) + hits copied (dropPreamble page) ≤
      noise.count (dropPreamble page) :=
    count_dropCopied_le (by decide) (by decide) _
  have hprompts : noise.count (dropPrompts (dropCopied (dropPreamble page))) ≤
      noise.count (dropCopied (dropPreamble page)) :=
    count_dropPrompts_le (fun _ hx => hx) _
  have hlinks := count_links_le seesPaths_noise seesRevisions_noise hanchors.isSilent_noise
    (dropPrompts (dropCopied (dropPreamble page)))
  have hrepair := seesRemarks_noise.count_repairDiagrams_le
    (dropRevisions (toAnchors anchors (absolute (dropPrompts (dropCopied (dropPreamble page))))))
  have hback : noise.count (normalize anchors page) = noise.count page := congrArg noise.count h
  have hnone : (hasPreamble page).toNat = 0 ∧ hits copied (dropPreamble page) = 0 := by
    rw [normalize] at hback
    omega
  exact ⟨Bool.toNat_eq_zero.1 hnone.1, hnone.2⟩

theorem revisions_of_eq (hanchors : AreSimple anchors)
    (h : repairDiagrams (dropRevisions (toAnchors anchors (absolute (dropPrompts page)))) = page) :
    hits Blob.anywhere (toAnchors anchors (absolute (dropPrompts page))) = 0 := by
  have hprompts : revisionSlash.count (dropPrompts page) ≤ revisionSlash.count page :=
    count_dropPrompts_le (fun _ hx => hx) page
  have hlinks := count_links_le seesPaths_revisionSlash seesRevisions_revisionSlash
    hanchors.isSilent_revisionSlash (dropPrompts page)
  have hrepair := seesRemarks_revisionSlash.count_repairDiagrams_le
    (dropRevisions (toAnchors anchors (absolute (dropPrompts page))))
  rw [h] at hrepair
  omega

theorem prompts_of_eq (h : repairDiagrams (absolute (dropPrompts page)) = page) :
    ∀ piece ∈ pieces page, isLoose piece = false := by
  have hprompts : prompt.count (dropPrompts page) + (pieces page).countP isLoose ≤
      prompt.count page :=
    count_dropPrompts_isLoose_le (by decide) (by decide) (by decide) page
  have habsolute := count_absolute_le seesPaths_prompt (dropPrompts page)
  have hrepair := seesRemarks_prompt.count_repairDiagrams_le (absolute (dropPrompts page))
  rw [h] at hrepair
  have hnone : (pieces page).countP isLoose = 0 := by omega
  intro piece hpiece
  rw [← Bool.not_eq_true]
  exact List.countP_eq_zero.1 hnone piece hpiece

theorem paths_of_eq (h : repairDiagrams (absolute page) = page) :
    hits inline page = 0 ∧ hits definition (inlined page) = 0 := by
  have habsolute := count_absolute_le seesPaths_pathSlash page
  have hrepair := seesRemarks_pathSlash.count_repairDiagrams_le (absolute page)
  rw [h] at hrepair
  omega

/-- A page in which nothing is found comes back. -/
theorem Settled.normalize_eq (h : Settled page) (anchors : Anchors) :
    normalize anchors page = page := by
  have hclean : dropPrompts (dropCopied (dropPreamble page)) = page := by
    rw [dropPreamble_of_not_hasPreamble h.preamble, dropCopied_of_hits_eq_zero h.copied,
      dropPrompts_of_not_isLoose h.prompts]
  have hlinks : dropRevisions (toAnchors anchors (absolute page)) = page := by
    rw [absolute_of_hits_eq_zero h.inlines h.definitions, toAnchors_of_hits_eq_zero _ h.revisions,
      dropRevisions_of_hits_eq_zero h.revisions]
  rw [normalize, hclean, hlinks]
  exact (repairDiagrams_eq_self_iff (ofText_eq_pieces_of_not_isLoose h.prompts)).2 h.diagrams

/-- **In a page that comes back nothing is found.** -/
theorem settled_of_normalize_eq (hanchors : AreSimple anchors) (h : normalize anchors page = page) :
    Settled page := by
  obtain ⟨hpreamble, hcopied⟩ := noise_of_eq hanchors h
  rw [dropPreamble_of_not_hasPreamble hpreamble] at hcopied
  rw [normalize, dropPreamble_of_not_hasPreamble hpreamble, dropCopied_of_hits_eq_zero hcopied] at h
  have hrevisions := revisions_of_eq hanchors h
  have hanchored := (toAnchors_eq_self_or_hits anchors (absolute (dropPrompts page))).resolve_right
    fun hhits => hhits hrevisions
  rw [dropRevisions_of_hits_eq_zero hrevisions, hanchored] at h
  rw [hanchored] at hrevisions
  have hprompts := prompts_of_eq h
  rw [dropPrompts_of_not_isLoose hprompts] at h hrevisions
  obtain ⟨hinlines, hdefinitions⟩ := paths_of_eq h
  rw [show inlined page = page from replace_of_hits_eq_zero _ hinlines] at hdefinitions
  rw [absolute_of_hits_eq_zero hinlines hdefinitions] at h hrevisions
  exact {
    preamble := hpreamble
    copied := hcopied
    prompts := hprompts
    inlines := hinlines
    definitions := hdefinitions
    revisions := hrevisions
    diagrams := (repairDiagrams_eq_self_iff (ofText_eq_pieces_of_not_isLoose hprompts)).1 h }

/-- **Normalizing twice is normalizing once exactly for pages whose normal form is settled.** -/
theorem normalize_twice_eq_iff (hanchors : AreSimple anchors) (page : Text) :
    normalize anchors (normalize anchors page) = normalize anchors page ↔
      Settled (normalize anchors page) :=
  ⟨settled_of_normalize_eq hanchors, fun h => h.normalize_eq anchors⟩

/-- The sections that every readme has go by simple anchors. -/
theorem areSimple_standard : AreSimple Anchors.standard := by decide +kernel

/-- A page with something to find for most passes. -/
def exportedPage : Text :=
  "Menu\n# A Link copied!\n[x](/o/r)\nAsk Devin about A\r\n".toList

theorem exportedPage_settled :
    AreSimple Anchors.standard ∧ Settled (normalize Anchors.standard exportedPage) :=
  ⟨areSimple_standard,
    (normalize_twice_eq_iff areSimple_standard exportedPage).1 (by decide +kernel)⟩

/-- A page with an address that has one revision behind another. -/
def nestedRevisions : Text :=
  "# A\n[x](https://github.com/o/r/blob/abcdef1/blob/abcdef1/f)\n".toList

/-- Without the first revision, the second one makes an address that names a revision again. -/
theorem nestedRevisions_twice_ne :
    normalize Anchors.standard (normalize Anchors.standard nestedRevisions) ≠
      normalize Anchors.standard nestedRevisions := by
  decide +kernel

end WikiTidy.Page
