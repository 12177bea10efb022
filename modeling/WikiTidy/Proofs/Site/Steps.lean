import WikiTidy.Proofs.Tree.Changes
import WikiTidy.Site.Run

/-!
# What the steps of a run change

Each step is about one place. If it is done, the place has the file that the step leaves there. If
it fails, the files are as they were, unless the disk cut it short: then the place has whatever was
left there. In no case does anything else change, except that folders are made on the way
(`Step.perform_cases`). So a run, wherever it stops, changes nothing but the places of its steps and
the way to them (`Step.kept_performAll`).

**Theorem (`Step.exists_done`).** Of steps about different places, none of which is copied from, a
run does a first part, all of them if it meets no fault, and at most one more is cut short, the one
that its fault is about. Afterwards each place of that part has what its step leaves there in the
tree before the run, and every place but these is as it was.
-/

namespace WikiTidy.Site.Step

open WikiTidy.Tree (Kept Opens Sets)
open Utf8 (Bytes)

variable {t t' : Tree} {p : Place} {s : Step} {steps : List Step} {disk : Nat → Fate}

/-- The place that a step is about. -/
def place : Step → Place
  | copy _ target => target
  | write target _ => target
  | remove place => place

/-- The file that a step leaves at its place. -/
def leaves (t : Tree) : Step → Option Bytes
  | copy source _ => t.content? source
  | write _ content => some (Utf8.encode content)
  | remove _ => none

/-- The step has to do with proper names only. -/
def IsClean : Step → Prop
  | copy source target => source.IsClean ∧ target.IsClean
  | write target _ => target.IsClean
  | remove place => place.IsClean

/-- The step copies from a place. -/
def CopiesFrom (p : Place) (s : Step) : Prop := ∃ target, s = copy p target

/-- The fault of a step that failed when the file at its place was open. -/
def IsCutBy (fault : Fault) : Step → Prop
  | copy source target => ∃ cause, fault = .notCopied source ⟨cause, .copyFile source target⟩
  | write target _ => ∃ cause, fault = .notWritten target ⟨cause, .writeFile⟩
  | remove _ => False

/-! ## One step -/

theorem makeFolderOf_opens (ht : t.IsPlain) (hp : p.IsClean) (fate : Fate) :
    Opens t (makeFolderOf fate t p).1 p := by
  have hsame : Opens t t p := ⟨ht, fun q => Or.inl rfl⟩
  have hmake : ∀ {folder : Place} {made : Tree}, folder <+: p → t.makeFolders folder = .ok made →
      Opens t made p := fun hpre hmade =>
    (ht.makeFolders (fun name hname => hp name (hpre.subset hname)) hmade).mono hpre
  unfold makeFolderOf
  split
  · next n cause =>
    have hway : p.dropLast.take n <+: p := (List.take_prefix n _).trans (List.dropLast_prefix p)
    cases hmade : t.makeFolders (p.dropLast.take n) with
    | error cause' => exact hsame
    | ok made => exact hmake hway hmade
  · cases hmade : t.makeFolders p.dropLast with
    | error cause => exact hsame
    | ok made => exact hmake (List.dropLast_prefix p) hmade

theorem putFile_cases (ht : t.IsPlain) (hp : p.IsClean) (fate : Fate) (content : Bytes)
    (opening writing : Operation) :
    (∃ t', putFile fate t p content opening writing = (t', none) ∧ Sets t t' p (some content)) ∨
      (∃ failure, putFile fate t p content opening writing = (t, some failure)) ∨
        ∃ t' left cause, putFile fate t p content opening writing =
          (t', some ⟨cause, writing⟩) ∧ Sets t t' p left := by
  unfold putFile
  split
  · exact Or.inr (Or.inl ⟨_, rfl⟩)
  · next left cause =>
    cases hleave : t.leave p left with
    | error cause' => exact Or.inr (Or.inl ⟨_, rfl⟩)
    | ok t' => exact Or.inr (Or.inr ⟨t', left, cause, rfl, ht.leave hp hleave⟩)
  · cases hwrite : t.write p content with
    | error cause => exact Or.inr (Or.inl ⟨_, rfl⟩)
    | ok t' => exact Or.inl ⟨t', rfl, ht.write hp hwrite⟩

/-- What delivering a file can do, if what is read does not depend on the folders that are made. -/
theorem deliver_cases (ht : t.IsPlain) (hp : p.IsClean) (fate : Fate)
    {read : Tree → Except Cause Bytes} (file : Option Bytes) (opening writing : Operation)
    (report : Failure → Fault)
    (hread : ∀ made c, Opens t made p → read made = .ok c → file = some c) :
    (∃ t', (deliver fate t p read opening writing).map id (·.map report) = (t', none) ∧
        Sets t t' p file) ∨
      (∃ t' fault, (deliver fate t p read opening writing).map id (·.map report) =
        (t', some fault) ∧ Opens t t' p) ∨
        ∃ t' left cause, (deliver fate t p read opening writing).map id (·.map report) =
          (t', some (report ⟨cause, writing⟩)) ∧ Sets t t' p left := by
  have hopens := makeFolderOf_opens ht hp fate
  unfold deliver
  cases hmake : makeFolderOf fate t p with
  | mk made failure? =>
    rw [hmake] at hopens
    cases failure? with
    | some failure => exact Or.inr (Or.inl ⟨made, _, rfl, hopens⟩)
    | none =>
      dsimp only
      cases hcontent : read made with
      | error cause => exact Or.inr (Or.inl ⟨made, _, rfl, hopens⟩)
      | ok c =>
        dsimp only
        rw [hread made c hopens hcontent]
        rcases putFile_cases hopens.plain hp fate c opening writing with
          ⟨t', hput, hsets⟩ | ⟨failure, hput⟩ | ⟨t', left, cause, hput, hsets⟩
        · exact Or.inl ⟨t', by rw [hput]; rfl, hopens.sets hsets⟩
        · exact Or.inr (Or.inl ⟨made, _, by rw [hput]; rfl, hopens⟩)
        · exact Or.inr (Or.inr ⟨t', left, cause, by rw [hput]; rfl, hopens.sets hsets⟩)

/-- **What a step can do.** It leaves its file at its place, or it fails and makes folders at most,
or it is cut short and something is left at its place. -/
theorem perform_cases (ht : t.IsPlain) (hs : s.IsClean) (fate : Fate) :
    (∃ t', perform fate t s = (t', none) ∧ Sets t t' s.place (s.leaves t)) ∨
      (∃ t' fault, perform fate t s = (t', some fault) ∧ Opens t t' s.place) ∨
        ∃ t' fault left, perform fate t s = (t', some fault) ∧ s.IsCutBy fault ∧
          Sets t t' s.place left := by
  cases s with
  | copy source target =>
    obtain ⟨hsource, htarget⟩ := hs
    have hread : ∀ made c, Opens t made target → made.read source = .ok c →
        t.content? source = some c := by
      intro made c hopens hread
      have hget := (hopens.plain.read_eq_ok_iff hsource).1 hread
      exact (hopens.rest source).content?.symm.trans (Tree.content?_eq_some_iff.2 hget)
    rcases deliver_cases ht htarget fate _ _ (.copyFile source target) (.notCopied source) hread with
      hdone | hfailed | ⟨t', left, cause, hdeliver, hsets⟩
    · exact Or.inl hdone
    · exact Or.inr (Or.inl hfailed)
    · exact Or.inr (Or.inr ⟨t', _, left, hdeliver, ⟨cause, rfl⟩, hsets⟩)
  | write target content =>
    have hread : ∀ made c, Opens t made target →
        (.ok (Utf8.encode content) : Except Cause _) = .ok c → some (Utf8.encode content) = some c :=
      fun made c _ h => congrArg some (Except.ok.inj h)
    rcases deliver_cases ht hs fate _ _ .writeFile (.notWritten target) hread with
      hdone | hfailed | ⟨t', left, cause, hdeliver, hsets⟩
    · exact Or.inl hdone
    · exact Or.inr (Or.inl hfailed)
    · exact Or.inr (Or.inr ⟨t', _, left, hdeliver, ⟨cause, rfl⟩, hsets⟩)
  | remove place =>
    have hsame : Opens t t place := ⟨ht, fun q => Or.inl rfl⟩
    cases fate with
    | done =>
      simp only [perform, takeAway]
      cases hremove : t.remove place with
      | error cause => exact Or.inr (Or.inl ⟨t, _, rfl, hsame⟩)
      | ok t' => exact Or.inl ⟨t', rfl, ht.remove hs hremove⟩
    | noFolder made cause => exact Or.inr (Or.inl ⟨t, _, rfl, hsame⟩)
    | notBegun cause => exact Or.inr (Or.inl ⟨t, _, rfl, hsame⟩)
    | cutShort left cause => exact Or.inr (Or.inl ⟨t, _, rfl, hsame⟩)

/-! ## A run of steps -/

theorem leaves_congr (h : ∀ p, s.CopiesFrom p → t'.content? p = t.content? p) :
    s.leaves t' = s.leaves t := by
  cases s with
  | copy source target => exact h source ⟨target, rfl⟩
  | write target content => rfl
  | remove place => rfl

theorem performAll_cons (ht : t.IsPlain) (hs : s.IsClean) {fault? : Option Fault}
    (h : performAll disk t (s :: steps) = (t', fault?)) :
    (∃ t₁, Sets t t₁ s.place (s.leaves t) ∧
        performAll (fun n => disk (n + 1)) t₁ steps = (t', fault?)) ∨
      ∃ fault, fault? = some fault ∧
        (Opens t t' s.place ∨ s.IsCutBy fault ∧ ∃ left, Sets t t' s.place left) := by
  rw [performAll] at h
  rcases perform_cases ht hs (disk 0) with
    ⟨t₁, hstep, hsets⟩ | ⟨t₁, fault, hstep, hopens⟩ | ⟨t₁, fault, left, hstep, hcut, hsets⟩
  · rw [hstep] at h
    exact Or.inl ⟨t₁, hsets, h⟩
  · rw [hstep] at h
    obtain ⟨rfl, rfl⟩ := Prod.mk.inj h
    exact Or.inr ⟨fault, rfl, Or.inl hopens⟩
  · rw [hstep] at h
    obtain ⟨rfl, rfl⟩ := Prod.mk.inj h
    exact Or.inr ⟨fault, rfl, Or.inr ⟨hcut, left, hsets⟩⟩

theorem kept_performAll {fault? : Option Fault} (ht : t.IsPlain)
    (hclean : ∀ s ∈ steps, s.IsClean) (h : performAll disk t steps = (t', fault?)) :
    ∀ q, q ∉ steps.map place → Kept t t' (steps.map place) q := by
  induction steps generalizing t disk with
  | nil =>
    obtain ⟨rfl, -⟩ := Prod.mk.inj h
    exact fun q _ => Or.inl rfl
  | cons s steps ih =>
    obtain ⟨hs, hclean⟩ := List.forall_mem_cons.1 hclean
    intro q hq
    rw [List.map_cons, List.mem_cons, not_or] at hq
    have hfirst : [s.place] ⊆ (s :: steps).map place := by simp
    rcases performAll_cons ht hs h with ⟨t₁, hsets, hrun⟩ | ⟨-, -, hopens | ⟨-, left, hsets⟩⟩
    · have hhere : Kept t t₁ [s.place] q := hsets.rest q hq.1
      have hrest : Kept t₁ t' (steps.map place) q := ih hsets.plain hclean hrun q hq.2
      exact (hhere.of_subset hfirst).trans (hrest.of_subset (List.subset_cons_self _ _))
    · exact (hopens.rest q).of_subset hfirst
    · exact (hsets.rest q hq.1).of_subset hfirst

/-- Between two trees the first steps of a run were done, and the one after them may have been cut
short. -/
structure Did (t t' : Tree) (steps done : List Step) (cut : Option Step) : Prop where
  plain : t'.IsPlain
  first : done ++ cut.toList <+: steps
  file : ∀ s ∈ done, t'.content? s.place = s.leaves t
  rest : ∀ q, q ∉ (done ++ cut.toList).map place → Kept t t' (steps.map place) q

/-- **A run does its steps up to the first fault**, and none of them undoes another one. -/
theorem exists_done {fault? : Option Fault} (ht : t.IsPlain) (hclean : ∀ s ∈ steps, s.IsClean)
    (hplaces : (steps.map place).Nodup)
    (hsource : ∀ s ∈ steps, ∀ p, s.CopiesFrom p → p ∉ steps.map place)
    (h : performAll disk t steps = (t', fault?)) :
    ∃ done cut, Did t t' steps done cut ∧ (fault? = none → done = steps ∧ cut = none) ∧
      ∀ s ∈ cut, ∃ fault, fault? = some fault ∧ s.IsCutBy fault := by
  induction steps generalizing t disk with
  | nil =>
    obtain ⟨rfl, -⟩ := Prod.mk.inj h
    exact ⟨[], none, ⟨ht, List.prefix_refl _, by simp, fun q _ => Or.inl rfl⟩,
      fun _ => ⟨rfl, rfl⟩, by simp⟩
  | cons s steps ih =>
    obtain ⟨hs, hclean⟩ := List.forall_mem_cons.1 hclean
    have hhere : [s.place] ⊆ (s :: steps).map place := by simp
    rw [List.map_cons, List.nodup_cons] at hplaces
    rcases performAll_cons ht hs h with
      ⟨t₁, hsets, hrun⟩ | ⟨fault, rfl, hopens | ⟨hcut, left, hsets⟩⟩
    · have hsame : ∀ p, p ≠ s.place → t₁.content? p = t.content? p :=
        fun p hp => by rw [hsets.content?, if_neg hp]
      obtain ⟨done, cut, hdid, hall, hcut⟩ := ih hsets.plain hclean hplaces.2
        (fun s' hs' p hp hmem => hsource s' (List.mem_cons_of_mem _ hs') p hp (by simp [hmem])) hrun
      have hfirst : (done ++ cut.toList).map place ⊆ steps.map place :=
        List.map_subset _ hdid.first.subset
      refine ⟨s :: done, cut, ⟨hdid.plain, List.cons_prefix_cons.2 ⟨rfl, hdid.first⟩, ?_, ?_⟩, ?_,
        hcut⟩
      · intro s' hs'
        rcases List.mem_cons.1 hs' with rfl | hs'
        · -- no later step is about the place of the first one
          rw [(hdid.rest _ fun hmem => hplaces.1 (hfirst hmem)).content?, hsets.content?, if_pos rfl]
        · rw [hdid.file s' hs', leaves_congr]
          intro p hp
          refine hsame p fun heq => ?_
          have hmem : s' ∈ steps := hdid.first.subset (List.mem_append_left _ hs')
          exact hsource s' (List.mem_cons_of_mem _ hmem) p hp (by simp [heq])
      · intro q hq
        rw [List.cons_append, List.map_cons, List.mem_cons, not_or] at hq
        exact ((hsets.rest q hq.1).of_subset hhere).trans
          ((hdid.rest q hq.2).of_subset (List.subset_cons_self _ _))
      · intro hnone
        obtain ⟨rfl, hcutNone⟩ := hall hnone
        exact ⟨rfl, hcutNone⟩
    · refine ⟨[], none, ⟨hopens.plain, List.nil_prefix, by simp, fun q _ => ?_⟩, by simp, by simp⟩
      exact (hopens.rest q).of_subset hhere
    · refine ⟨[], some s, ⟨hsets.plain, by simp, by simp, fun q hq => ?_⟩, by simp, ?_⟩
      · exact (hsets.rest q (by simpa using hq)).of_subset hhere
      · intro s' hs'
        obtain rfl := Option.mem_some.1 hs'
        exact ⟨fault, rfl, hcut⟩

/-- **A file that was removed stays away**, unless a later step is about a place below it. -/
theorem get?_of_remove (ht : t.IsPlain) (hclean : ∀ s ∈ steps, s.IsClean)
    (hplaces : (steps.map place).Nodup) (h : performAll disk t steps = (t', none))
    (hmem : .remove p ∈ steps) : t'.get? p = none ∨ ∃ q ∈ steps.map place, p <+: q ∧ q ≠ p := by
  induction steps generalizing t disk with
  | nil => cases hmem
  | cons s steps ih =>
    obtain ⟨hs, hlater⟩ := List.forall_mem_cons.1 hclean
    rw [List.map_cons, List.nodup_cons] at hplaces
    rcases performAll_cons ht hs h with ⟨t₁, hsets, hrun⟩ | ⟨fault, hnone, -⟩
    · rcases List.mem_cons.1 hmem with rfl | hmem
      · rcases kept_performAll hsets.plain hlater hrun p hplaces.1 with hsame | ⟨-, -, q, hq, hpq⟩
        · exact Or.inl (hsame.trans hsets.here)
        · refine Or.inr ⟨q, List.mem_cons_of_mem _ hq, hpq, ?_⟩
          rintro rfl
          exact hplaces.1 hq
      · rcases ih hsets.plain hlater hplaces.2 hrun hmem with hnone | ⟨q, hq, hpq⟩
        · exact Or.inl hnone
        · exact Or.inr ⟨q, List.mem_cons_of_mem _ hq, hpq⟩
    · cases hnone

end WikiTidy.Site.Step
