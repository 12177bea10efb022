import Mathlib.Data.Option.Basic
import WikiTidy.Link.Blob
import WikiTidy.Proofs.Text.Marks
import WikiTidy.Proofs.Text.Split

/-!
# What dropping revisions takes away

The head of an address is read exactly where one that is well formed is written
(`Blob.anywhere_prints`). To put an anchor in the place of a section keeps the head of the address,
so after `toAnchors` there is an address left for `dropRevisions`, or nothing was changed
(`toAnchors_eq_self_or_hits`).

A revision that is dropped takes the slash in front of `blob` with it, and neither pass makes a new
one as long as no anchor has a slash.
-/

namespace WikiTidy.Link

open Text

variable {m : Mark} {s r name anchor : Text} {blob : Blob} {n : Nat}

namespace Blob

/-- The parts of the address are what they are called. -/
structure IsValid (blob : Blob) : Prop where
  owner : blob.owner ≠ [] ∧ '/' ∉ blob.owner
  repository : blob.repository ≠ [] ∧ '/' ∉ blob.repository
  digits : ∀ c ∈ blob.revision, isRevisionDigit c = true
  length : 7 ≤ blob.revision.length ∧ blob.revision.length ≤ 40

theorem marker_eq : marker = '/' :: 'b' :: "lob/".toList := by decide +kernel

theorem isRevisionDigit_slash : isRevisionDigit '/' = false := by decide

/-- **The head of an address is read exactly where it is written.** -/
theorem read?_eq_some_iff : read? s = some (blob, r) ↔ blob.IsValid ∧ s = blob.render ++ r := by
  constructor
  · intro h
    simp only [read?, Option.bind_eq_bind, Option.bind_eq_some_iff, Option.guard_eq_some'] at h
    obtain ⟨s₁, horigin, ⟨owner, s₂⟩, howner, s₃, hslash, ⟨repository, s₄⟩, hrepository, s₅, hmarker,
      ⟨revision, s₆⟩, hrevision, -, hlength, s₇, hend, he⟩ := h
    obtain ⟨rfl, rfl⟩ : Blob.mk owner repository revision = blob ∧ s₇ = r := by simpa using he
    obtain rfl : s₆ = ['/'] ++ s₇ := after?_eq_some_iff.1 hend
    obtain ⟨rfl, -, hdigits, -⟩ := run?_eq_some hrevision
    obtain rfl : s₄ = marker ++ (revision ++ (['/'] ++ s₇)) := after?_eq_some_iff.1 hmarker
    obtain ⟨rfl, hrne, hr, -⟩ := run?_eq_some hrepository
    obtain rfl := after?_eq_some_iff.1 hslash
    obtain ⟨rfl, hone, ho, -⟩ := run?_eq_some howner
    obtain rfl := after?_eq_some_iff.1 horigin
    refine ⟨⟨⟨hone, fun h => ?_⟩, ⟨hrne, fun h => ?_⟩, hdigits, hlength⟩, by simp [render, root]⟩
    · simpa using ho _ h
    · simpa using hr _ h
  · rintro ⟨hvalid, rfl⟩
    obtain ⟨owner, repository, revision⟩ := blob
    obtain ⟨⟨hone, ho⟩, ⟨hrne, hr⟩, hdigits, hlength⟩ := hvalid
    have hline : render ⟨owner, repository, revision⟩ ++ r = (origin ++ ['/']) ++
        (owner ++ '/' :: (repository ++ (marker ++ (revision ++ '/' :: r)))) := by
      simp [render, root]
    have hrevne : revision ≠ [] := by
      rintro rfl
      exact absurd hlength.1 (by simp)
    have hslash : ∀ c ∈ (marker ++ (revision ++ '/' :: r)).head?, (c != '/') = false := by
      simp [marker_eq]
    have hrepository : run? (· != '/') (repository ++ (marker ++ (revision ++ '/' :: r))) =
        some (repository, marker ++ (revision ++ '/' :: r)) :=
      run?_append hrne (all_ne_of_notMem hr) hslash
    have howner : run? (· != '/')
        (owner ++ '/' :: (repository ++ (marker ++ (revision ++ '/' :: r)))) =
        some (owner, '/' :: (repository ++ (marker ++ (revision ++ '/' :: r)))) :=
      run?_append hone (all_ne_of_notMem ho) (by simp)
    have hrevision : run? isRevisionDigit (revision ++ '/' :: r) = some (revision, '/' :: r) :=
      run?_append hrevne hdigits (by simp [isRevisionDigit_slash])
    rw [hline, read?, after?_append]
    simp [howner, hrepository, hrevision, after?_append, after?, hlength]

theorem anywhere_prints : anywhere.Prints render IsValid where
  reads _ _ _ _ := read?_eq_some_iff
  ne_nil blob := by simp [render]

theorem ofSection_prints (name : Text) :
    (ofSection name).Prints (fun blob => blob.render ++ name) IsValid where
  reads b s blob r := by
    simp only [ofSection, Option.bind_eq_bind, Option.bind_eq_some_iff]
    constructor
    · rintro ⟨⟨blob', s₁⟩, hread, s₂, hname, he⟩
      obtain ⟨rfl, rfl⟩ : blob' = blob ∧ s₂ = r := by simpa using he
      obtain rfl : s₁ = name ++ s₂ := after?_eq_some_iff.1 hname
      obtain ⟨hvalid, rfl⟩ := read?_eq_some_iff.1 hread
      exact ⟨hvalid, by simp⟩
    · rintro ⟨hvalid, rfl⟩
      refine ⟨(blob, name ++ r), read?_eq_some_iff.2 ⟨hvalid, by simp⟩, r, after?_append name r, rfl⟩
  ne_nil blob := by simp [render]

end Blob

open Blob

/-! ## Anchors leave an address behind -/

theorem toAnchor_eq_self_or_hits (name anchor page : Text) :
    toAnchor name anchor page = page ∨ hits anywhere (toAnchor name anchor page) ≠ 0 := by
  by_cases hzero : hits (ofSection name) page = 0
  · exact Or.inl (replace_of_hits_eq_zero _ hzero)
  · obtain ⟨blob, w, pre, post, hmem, hpage⟩ :=
      exists_of_hits_ne_zero (fun blob => blob.render ++ readmeAnchor ++ anchor) hzero
    have hvalid := ((ofSection_prints name).of_hit_mem hmem).1
    refine Or.inr fun hnone => ?_
    have hsuffix : blob.render ++ (readmeAnchor ++ anchor ++ post) <:+ toAnchor name anchor page :=
      ⟨pre, by rw [toAnchor, hpage]; simp⟩
    have hread := (hits_eq_zero_iff anywhere_prints.isLocal).1 hnone _ hsuffix
    rw [anywhere, read?_eq_some_iff.2 ⟨hvalid, rfl⟩] at hread
    cases hread

theorem toAnchors_cons (name anchor : Text) (anchors : Anchors) (page : Text) :
    toAnchors ((name, anchor) :: anchors) page = toAnchors anchors (toAnchor name anchor page) := rfl

/-- **Where sections were turned into anchors, a revision is left to be dropped.** -/
theorem toAnchors_eq_self_or_hits (anchors : Anchors) (page : Text) :
    toAnchors anchors page = page ∨ hits anywhere (toAnchors anchors page) ≠ 0 := by
  suffices hfold : ∀ current, current = page ∨ hits anywhere current ≠ 0 →
      toAnchors anchors current = page ∨ hits anywhere (toAnchors anchors current) ≠ 0 from
    hfold page (Or.inl rfl)
  induction anchors with
  | nil => exact fun _ h => h
  | cons entry anchors ih =>
    obtain ⟨name, anchor⟩ := entry
    intro current h
    rw [toAnchors_cons]
    refine ih _ ?_
    rcases toAnchor_eq_self_or_hits name anchor current with heq | hhits
    · rwa [heq]
    · exact Or.inr hhits

theorem dropRevisions_of_hits_eq_zero {page : Text} (h : hits anywhere page = 0) :
    dropRevisions page = page :=
  replace_of_hits_eq_zero _ h

/-- A page without revisions is left alone. -/
theorem toAnchors_of_hits_eq_zero (anchors : Anchors) {page : Text} (h : hits anywhere page = 0) :
    toAnchors anchors page = page := by
  have hnone := (hits_eq_zero_iff anywhere_prints.isLocal).1 h
  induction anchors with
  | nil => rfl
  | cons entry anchors ih =>
    obtain ⟨name, anchor⟩ := entry
    have hsection : hits (ofSection name) page = 0 := by
      refine (hits_eq_zero_iff (ofSection_prints name).isLocal).2 fun r hr => ?_
      simp [ofSection, show read? r = none from hnone r hr]
    have hstep : toAnchor name anchor page = page := replace_of_hits_eq_zero _ hsection
    rw [toAnchors_cons, hstep, ih]

/-! ## Counting slashes in front of a letter -/

/-- The mark looks at what follows a slash only, and sees nothing where an anchor begins. -/
structure SeesRevisions (m : Mark) (n : Nat) : Prop where
  left : ∀ x x' y, m.slash x y = m.slash x' y
  readme : m.IsSilent readmeAnchor ∧ m.slash '/' 'R' = false
  revision : n ≤ (m.slash '/' 'b').toNat

theorem seesRevisions_ofChars {cs : List Char}
    (h : (readmeAnchor.all fun c => !cs.contains c) = true) :
    SeesRevisions (Mark.ofChars cs) 0 where
  left _ _ _ := rfl
  readme := by
    have hreadme : ∀ c ∈ readmeAnchor, (!cs.contains c) = true := List.all_eq_true.1 h
    refine ⟨⟨by decide +kernel, ?_⟩, rfl⟩
    intro c hc
    simpa [Mark.ofChars] using hreadme c hc
  revision := Nat.zero_le _

theorem render_ne_nil (blob : Blob) : blob.render ≠ [] := anywhere_prints.ne_nil blob

theorem SeesRevisions.falls_anchor (hm : SeesRevisions m n) (hanchor : m.IsSilent anchor) :
    m.Falls 0 (blob.render ++ readmeAnchor ++ anchor) (blob.render ++ name) := by
  have hne := render_ne_nil blob
  have hhead : ∀ t : Text, (blob.render ++ t).headD '\n' = blob.render.headD '\n' := by
    intro t
    obtain ⟨c, u, hcu⟩ := List.exists_cons_of_ne_nil hne
    rw [hcu]
    rfl
  rw [List.append_assoc]
  refine Mark.falls_of_ends (by simp [hne]) (by simp [hne]) ?_ ?_ ?_
  · intro x y
    have hsilent := (hm.readme.1.append hanchor).tally_eq_zero (blob.render.getLastD x) y
    have hmono : m.tally x blob.render 'R' ≤ m.tally x blob.render (name.headD y) := by
      refine Mark.tally_mono_right fun z hz => ?_
      rw [hm.left z '/' 'R', hm.readme.2] at hz
      cases hz
    have hreadme : (readmeAnchor ++ anchor).headD y = 'R' := by
      rw [show readmeAnchor = 'R' :: "EADME.md#".toList by decide +kernel]
      rfl
    rw [Mark.tally_append m x blob.render (readmeAnchor ++ anchor), hsilent, hreadme,
      Mark.tally_append m x blob.render name]
    omega
  · intro x h
    rw [hhead] at h ⊢
    exact h
  · intro y h
    rwa [hm.left _ ((blob.render ++ (readmeAnchor ++ anchor)).getLastD '\n')]

theorem count_toAnchor_le (hm : SeesRevisions m n) (name : Text) (hanchor : m.IsSilent anchor)
    (page : Text) : m.count (toAnchor name anchor page) ≤ m.count page := by
  have hfalls : m.Falls (0 * hits (ofSection name) page) (toAnchor name anchor page) page := by
    refine Mark.falls_replace ?_ page
    intro b s blob r h
    obtain ⟨-, rfl⟩ := ((ofSection_prints name).reads b s blob r).1 h
    exact ⟨_, (ofSection_prints name).ne_nil blob, rfl, hm.falls_anchor hanchor⟩
  exact Nat.le_of_add_right_le hfalls.count_le

/-- Anchors add nothing to what they are put in. -/
theorem count_toAnchors_le (hm : SeesRevisions m n) {anchors : Anchors}
    (hanchors : ∀ e ∈ anchors, m.IsSilent e.2) (page : Text) :
    m.count (toAnchors anchors page) ≤ m.count page := by
  induction anchors generalizing page with
  | nil => exact Nat.le_refl _
  | cons entry anchors ih =>
    obtain ⟨name, anchor⟩ := entry
    obtain ⟨hanchor, hanchors⟩ := List.forall_mem_cons.1 hanchors
    exact Nat.le_trans (ih hanchors _) (count_toAnchor_le hm name hanchor page)

theorem SeesRevisions.falls_root (hm : SeesRevisions m n) :
    m.Falls n (blob.root ++ ['/']) blob.render := by
  have hrender : blob.render =
      blob.root ++ '/' :: ('b' :: "lob/".toList ++ blob.revision ++ ['/']) := by
    simp [Blob.render, marker_eq]
  refine Mark.falls_of_ends (by simp) (render_ne_nil blob) ?_ ?_ ?_
  · intro x y
    -- the last slash counts as before, and the one in front of `blob` counts no more
    have hend := m.tally_append '/' ('b' :: "lob/".toList ++ blob.revision) ['/'] y
    have hlast : m.tally (('b' :: "lob/".toList ++ blob.revision).getLastD '/') ['/'] y =
        m.tally (blob.root.getLastD x) ['/'] y := by
      simp [Mark.tally, Mark.holds, hm.left _ (blob.root.getLastD x)]
    have hfirst : m.tally (blob.root.getLastD x)
        ('/' :: ('b' :: "lob/".toList ++ blob.revision ++ ['/'])) y =
        (m.slash '/' 'b').toNat +
          m.tally '/' ('b' :: "lob/".toList ++ blob.revision ++ ['/']) y := by
      rw [hm.left '/' (blob.root.getLastD x)]
      rfl
    have hrevision := hm.revision
    rw [hrender, Mark.tally_append m x blob.root ['/'], Mark.tally_append m x blob.root, hfirst]
    simp only [List.headD_cons] at *
    omega
  · intro x h
    rw [hrender]
    simpa [Blob.root] using h
  · intro y h
    rw [hrender, ← List.cons_append, ← List.append_assoc, List.getLastD_concat] at *
    exact h

/-- **Every revision takes a slash away.** -/
theorem count_dropRevisions_le (hm : SeesRevisions m n) (page : Text) :
    m.count (dropRevisions page) + n * hits anywhere page ≤ m.count page := by
  have hfalls : m.Falls (n * hits anywhere page) (dropRevisions page) page := by
    refine Mark.falls_replace ?_ page
    intro b s blob r h
    obtain ⟨-, rfl⟩ := (anywhere_prints.reads b s blob r).1 h
    exact ⟨_, render_ne_nil blob, rfl, hm.falls_root⟩
  exact hfalls.count_le

end WikiTidy.Link
