import WikiTidy.Proofs.Tree.Plain

/-!
# What changes in a plain tree

The operations keep a tree plain, and each touches little: making folders fills free places on the
way to the last of them (`Opens`); writing puts one file, removing takes one file away, and what is
left of a file that was opened is at its place (`Sets`). Whatever else is new is a folder on the way.

What a tree holds in files is one view, `content?`. Making folders does not change it, and the other
operations change it at one place.
-/

namespace WikiTidy

namespace Tree

open Utf8 (Bytes)

variable {t t' t'' : Tree} {here p q : Place} {ps ps' : List Place} {names : List Text} {e : Entry}
  {c : Bytes} {file : Option Bytes}

/-! ## The files of a tree -/

/-- The content of the file at a place, if a file is there. -/
def content? (t : Tree) (p : Place) : Option Bytes :=
  match t.get? p with
  | some (.file c) => some c
  | _ => none

theorem content?_eq_some_iff : t.content? p = some c ↔ t.get? p = some (.file c) := by
  unfold content?
  split
  · next d h => simp [h]
  · next h => simpa using h c

theorem content?_congr (h : t'.get? p = t.get? p) : t'.content? p = t.content? p := by
  rw [content?, content?, h]

/-! ## Putting and erasing -/

theorem get?_put_of_ne (hp : p ≠ []) : (t.put p e).get? q = if q = p then some e else t.get? q := by
  by_cases hq : q = []
  · subst hq
    rw [if_neg hp.symm]
    rfl
  · rw [get?_put t p q e hq]
    simp only [eq_comm]

/-- A free place of a folder, or a file in it, can hold a folder or a file. -/
theorem IsPlain.put (ht : t.IsPlain) (hp : p.IsClean) (hne : p ≠ [])
    (hfolder : t.get? p.dropLast = some .folder) (hfree : t.get? p ≠ some .folder)
    (he : ∀ target, e ≠ .link target) : (t.put p e).IsPlain := by
  have hkeys : ∀ k ∈ (t.put p e).entries.keys, k = p ∨ k ∈ t.entries.keys :=
    fun k hk => Table.mem_keys_update.1 hk
  have hself : p.dropLast ≠ p := fun h => by
    have := congrArg List.length h
    have := List.length_pos_iff.2 hne
    rw [List.length_dropLast] at *
    omega
  refine ⟨⟨Table.nodup_keys_put ht.distinct, ?_, ?_⟩, ?_⟩
  · intro k hk
    rcases hkeys k hk with rfl | hk
    · exact hp
    · exact ht.clean k hk
  · intro k hk
    rw [get?_put_of_ne hne]
    rcases hkeys k hk with rfl | hk
    · rwa [if_neg hself]
    · have hparent := ht.folder k hk
      rw [if_neg, hparent]
      rintro heq
      exact hfree (heq ▸ hparent)
  · intro k target
    rw [get?_put_of_ne hne]
    split
    · exact fun h => he target (Option.some.inj h)
    · exact ht.noLink k target

theorem get?_erase (hp : p ≠ []) :
    (t.erase p).get? q = if p <+: q then none else t.get? q := by
  by_cases hq : q = []
  · subst hq
    rw [if_neg (by simpa using hp)]
    rfl
  · rw [get?_of_ne_nil _ hq, get?_of_ne_nil _ hq, erase,
      Table.get?_filter_key t.entries fun k => !p.isPrefixOf k]
    by_cases hpre : p <+: q
    · rw [List.isPrefixOf_iff_prefix.2 hpre, if_pos hpre]
      rfl
    · rw [Bool.eq_false_iff.2 fun h => hpre (List.isPrefixOf_iff_prefix.1 h), if_neg hpre]
      rfl

/-- A file takes nothing else with it. -/
theorem IsPlain.get?_erase_file (ht : t.IsPlain) (h : t.get? p = some (.file c)) :
    (t.erase p).get? q = if q = p then none else t.get? q := by
  have hp : p ≠ [] := by
    rintro rfl
    cases h
  rw [get?_erase hp]
  by_cases hpre : p <+: q
  · obtain ⟨r, rfl⟩ := hpre
    rw [if_pos (List.prefix_append p r)]
    by_cases hr : r = []
    · simp [hr]
    · rw [if_neg (by simpa using hr), ht.get?_below hr (by simp [h])]
  · rw [if_neg hpre, if_neg]
    rintro rfl
    exact hpre (List.prefix_refl q)

theorem IsPlain.erase (ht : t.IsPlain) (h : t.get? p = some (.file c)) : (t.erase p).IsPlain := by
  have hsub : (t.erase p).entries.keys.Sublist t.entries.keys :=
    (List.filter_sublist (l := t.entries)).map Prod.fst
  refine ⟨⟨ht.distinct.sublist hsub, fun k hk => ht.clean k (hsub.subset hk), ?_⟩, ?_⟩
  · intro k hk
    have hparent := ht.folder k (hsub.subset hk)
    rw [ht.get?_erase_file h, if_neg, hparent]
    rintro heq
    rw [heq, h] at hparent
    cases hparent
  · intro k target
    rw [ht.get?_erase_file h]
    split
    · simp
    · exact ht.noLink k target

/-! ## What an operation leaves alone -/

/-- Nothing changed at a place, or a folder was made there on the way to one of `ps`. -/
def Kept (t t' : Tree) (ps : List Place) (q : Place) : Prop :=
  t'.get? q = t.get? q ∨ (t.get? q = none ∧ t'.get? q = some .folder ∧ ∃ p ∈ ps, q <+: p)

theorem Kept.trans (h : Kept t t' ps q) (h' : Kept t' t'' ps q) : Kept t t'' ps q := by
  rcases h with heq | ⟨hnone, hfolder, hpre⟩
  · rcases h' with heq' | ⟨hnone', hfolder', hpre'⟩
    · exact Or.inl (heq'.trans heq)
    · exact Or.inr ⟨heq ▸ hnone', hfolder', hpre'⟩
  · rcases h' with heq' | ⟨hnone', -, -⟩
    · exact Or.inr ⟨hnone, heq'.trans hfolder, hpre⟩
    · rw [hfolder] at hnone'
      cases hnone'

/-- The places on the way to some places are on the way to those below them. -/
theorem Kept.mono (h : Kept t t' ps q) (hps : ∀ p ∈ ps, ∃ p' ∈ ps', p <+: p') :
    Kept t t' ps' q := by
  refine h.imp_right ?_
  rintro ⟨hnone, hfolder, p, hp, hq⟩
  obtain ⟨p', hp', hpre⟩ := hps p hp
  exact ⟨hnone, hfolder, p', hp', hq.trans hpre⟩

theorem Kept.of_subset (h : Kept t t' ps q) (hps : ps ⊆ ps') : Kept t t' ps' q :=
  h.mono fun p hp => ⟨p, hps hp, List.prefix_refl p⟩

/-- A folder that was made is no file. -/
theorem Kept.content? (h : Kept t t' ps q) : t'.content? q = t.content? q := by
  rcases h with heq | ⟨hnone, hfolder, -⟩
  · exact content?_congr heq
  · simp [Tree.content?, hnone, hfolder]

theorem Kept.get?_eq (h : Kept t t' ps q) (hq : ∀ p ∈ ps, ¬q <+: p) : t'.get? q = t.get? q := by
  refine h.resolve_right ?_
  rintro ⟨-, -, p, hp, hpre⟩
  exact hq p hp hpre

/-- Folders were made on the way to a place, and nothing else happened. -/
structure Opens (t t' : Tree) (p : Place) : Prop where
  plain : t'.IsPlain
  rest : ∀ q, Kept t t' [p] q

/-- A place was given a file or emptied, and folders were made on the way to it. -/
structure Sets (t t' : Tree) (p : Place) (file : Option Bytes) : Prop where
  plain : t'.IsPlain
  here : t'.get? p = file.map .file
  rest : ∀ q, q ≠ p → Kept t t' [p] q

theorem Opens.mono (h : Opens t t' here) (hpre : here <+: p) : Opens t t' p :=
  ⟨h.plain, fun q => (h.rest q).mono fun _ hp => ⟨p, by simp, List.mem_singleton.1 hp ▸ hpre⟩⟩

theorem Opens.sets (h : Opens t t' p) (h' : Sets t' t'' p file) : Sets t t'' p file :=
  ⟨h'.plain, h'.here, fun q hq => (h.rest q).trans (h'.rest q hq)⟩

theorem Sets.trans {file' : Option Bytes} (h : Sets t t' p file) (h' : Sets t' t'' p file') :
    Sets t t'' p file' :=
  ⟨h'.plain, h'.here, fun q hq => (h.rest q hq).trans (h'.rest q hq)⟩

theorem Sets.content? (h : Sets t t' p file) (q : Place) :
    t'.content? q = if q = p then file else t.content? q := by
  split
  · next heq =>
    subst heq
    cases file with
    | none => simp [Tree.content?, h.here]
    | some c => simp [Tree.content?, h.here]
  · next hne => exact (h.rest q hne).content?

/-! ## The operations -/

theorem IsPlain.makeFoldersFrom (ht : t.IsPlain) (hhere : here.IsClean)
    (hfolder : t.get? here = some .folder) (hnames : Place.IsClean names)
    (h : t.makeFoldersFrom here names = .ok t') : Opens t t' (here ++ names) := by
  induction names generalizing t here with
  | nil =>
    obtain rfl : t = t' := by simpa [Tree.makeFoldersFrom] using h
    exact ⟨ht, fun q => Or.inl rfl⟩
  | cons name names ih =>
    obtain ⟨hname, hnames⟩ := List.forall_mem_cons.1 hnames
    have hclean : Place.IsClean (here ++ [name]) :=
      Place.isClean_append.2 ⟨hhere, by simpa [Place.IsClean] using hname⟩
    have hne : here ++ [name] ≠ [] := by simp
    rw [show here ++ name :: names = (here ++ [name]) ++ names by simp]
    rw [Tree.makeFoldersFrom] at h
    cases hget : t.get? (here ++ [name]) with
    | none =>
      simp only [hget] at h
      have hput : (t.put (here ++ [name]) .folder).IsPlain :=
        ht.put hclean hne (by simpa using hfolder) (by simp [hget]) (by simp)
      have hrest := ih hput hclean (by simp [get?_put_of_ne hne]) hnames h
      refine ⟨hrest.plain, fun q => .trans ?_ (hrest.rest q)⟩
      by_cases hq : q = here ++ [name]
      · subst hq
        exact Or.inr ⟨hget, by simp [get?_put_of_ne hne], _, List.mem_singleton_self _,
          List.prefix_append _ _⟩
      · exact Or.inl (by rw [get?_put_of_ne hne, if_neg hq])
    | some e =>
      cases e with
      | folder =>
        simp only [hget] at h
        exact ih ht hclean hget hnames h
      | file content => simp [hget] at h
      | link target => exact absurd hget (ht.noLink _ _)

/-- **Making folders fills free places and does nothing else.** -/
theorem IsPlain.makeFolders (ht : t.IsPlain) (hp : p.IsClean) (h : t.makeFolders p = .ok t') :
    Opens t t' p := by
  have hfrom : t.makeFoldersFrom [] p = .ok t' := h
  exact ht.makeFoldersFrom (by simp [Place.IsClean]) rfl hp hfrom

/-- **Writing puts one file.** -/
theorem IsPlain.write (ht : t.IsPlain) (hp : p.IsClean) (h : t.write p c = .ok t') :
    Sets t t' p (some c) := by
  have hput : p ≠ [] → t.get? p.dropLast = some .folder → t.get? p ≠ some .folder →
      Sets t (t.put p (.file c)) p (some c) := by
    intro hne hfolder hfree
    refine ⟨ht.put hp hne hfolder hfree (by simp), by simp [get?_put_of_ne hne], fun q hq => ?_⟩
    exact Or.inl (by rw [get?_put_of_ne hne, if_neg hq])
  unfold Tree.write at h
  split at h
  · cases h
  · next q hlocate =>
    obtain rfl : t.put q (.file c) = t' := by simpa using h
    rcases ht.locate_cases hp hlocate with ⟨hspot, -⟩ | ⟨hspot, hne, hget, hfolder⟩
    · cases hspot
    · obtain rfl : q = p := by simpa using hspot
      exact hput hne hfolder (by simp [hget])
  · next q hlocate =>
    rcases ht.locate_cases hp hlocate with ⟨hspot, hget⟩ | ⟨hspot, -⟩
    · obtain rfl : q = p := by simpa using hspot
      split at h
      · cases h
      · next hfree =>
        obtain rfl : t.put q (.file c) = t' := by simpa using h
        have hfree' : t.get? q ≠ some .folder := by simpa [isFolder] using hfree
        obtain ⟨e, he⟩ := Option.ne_none_iff_exists'.1 hget
        refine hput ?_ (ht.get?_dropLast he) hfree'
        rintro rfl
        exact hfree' rfl
    · cases hspot

/-- **Removing takes one file away.** -/
theorem IsPlain.remove (ht : t.IsPlain) (hp : p.IsClean) (h : t.remove p = .ok t') :
    Sets t t' p none := by
  unfold Tree.remove at h
  split at h
  · next name folder hlast hreal =>
    have hp' : p = p.dropLast ++ [name] := by
      obtain ⟨init, rfl⟩ := List.getLast?_eq_some_iff.1 hlast
      simp
    obtain ⟨rfl, -⟩ := (ht.realFolder_eq_ok_iff (Place.isClean_append.1 (hp' ▸ hp)).1).1 hreal
    rw [← hp'] at h
    split at h
    · cases h
    · cases h
    · next e hnone hget =>
      obtain rfl : t.erase p = t' := by simpa using h
      cases e with
      | folder => exact absurd rfl hnone
      | file content =>
        refine ⟨ht.erase hget, by simp [ht.get?_erase_file hget], fun q hq => Or.inl ?_⟩
        rw [ht.get?_erase_file hget, if_neg hq]
      | link target => exact absurd hget (ht.noLink _ _)
  · cases h
  · cases h

/-- What is left of a file is at its place, and nothing else has changed. -/
theorem IsPlain.leave (ht : t.IsPlain) (hp : p.IsClean) (h : t.leave p file = .ok t') :
    Sets t t' p file := by
  cases file with
  | some left => exact ht.write hp h
  | none =>
    unfold Tree.leave at h
    cases hwrite : t.write p [] with
    | error cause =>
      rw [hwrite] at h
      cases h
    | ok made =>
      rw [hwrite] at h
      have hmade := ht.write hp hwrite
      exact hmade.trans (hmade.plain.remove hp h)

end Tree

end WikiTidy
