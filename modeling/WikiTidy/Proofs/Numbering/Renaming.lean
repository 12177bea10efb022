import Mathlib.Data.Option.Basic
import WikiTidy.Numbering.Renames
import WikiTidy.Proofs.Path.LastName
import WikiTidy.Proofs.Table

/-!
# What a new path looks like

**Theorem (`renumbers_of_get?_renames`).** Every page that is renamed keeps its folder, and its name
gets a number and a dash in front of it. This holds whatever a readme lists: an entry ends like a
page, so its last name is a proper name, and joining the entry to the folder of the readme carries
that name over with or without a number.

The number can be read off the new name again (`pad_append_dash_inj`), so two pages of one folder
never get the same new name.
-/

namespace WikiTidy

open Text

namespace Numbering

/-! ## Numbers -/

theorem ofDigitChars_pad (n : Nat) : Nat.ofDigitChars 10 (pad n) 0 = n := by
  rw [pad, Nat.ofDigitChars_append, Nat.ofDigitChars_replicate_zero, Nat.mul_zero,
    Nat.ofDigitChars_ten_toDigits]

theorem pad_ne_nil (n : Nat) : pad n ≠ [] := by
  simp [pad, Nat.toDigits_ne_nil]

theorem isDigit_of_mem_pad {n : Nat} {c : Char} (h : c ∈ pad n) : c.isDigit := by
  simp only [pad, List.mem_append] at h
  rcases h with h | h
  · rw [List.eq_of_mem_replicate h]
    decide
  · exact Nat.isDigit_of_mem_toDigits (by decide) (by decide) h

theorem notMem_pad {n : Nat} {c : Char} (hc : c.isDigit = false) : c ∉ pad n := by
  intro h
  rw [isDigit_of_mem_pad h] at hc
  exact absurd hc (by decide)

/-- The number and the old name can be read off a new name. -/
theorem pad_append_dash_inj {m n : Nat} {a b : Text} (h : pad m ++ '-' :: a = pad n ++ '-' :: b) :
    m = n ∧ a = b := by
  have hdash : ∀ k, '-' ∉ pad k := fun k => notMem_pad (by decide)
  obtain ⟨hpad, htail⟩ := append_sep_inj (hdash m) (hdash n) h
  exact ⟨by rw [← ofDigitChars_pad m, hpad, ofDigitChars_pad], htail⟩

theorem numbered_inj {m n : Nat} {path : Text} (h : numbered m path = numbered n path) : m = n := by
  simp only [numbered, List.append_assoc, List.append_cancel_left_eq] at h
  exact (pad_append_dash_inj h).1

theorem isName_numbered {name : Text} (h : Path.IsName name) (n : Nat) :
    Path.IsName (pad n ++ '-' :: name) where
  ne_nil := by simp
  ne_here he := by
    have hdash : '-' ∈ Path.here := he ▸ by simp
    exact absurd hdash (by decide)
  ne_above he := by
    have hdash : '-' ∈ Path.above := he ▸ by simp
    exact absurd hdash (by decide)
  slash := by simpa using ⟨notMem_pad (by decide), h.slash⟩

/-! ## Entries -/

theorem itemTarget?_eq_some {line target : Text} (h : itemTarget? line = some target) :
    target ≠ [] ∧ ')' ∉ target := by
  simp only [itemTarget?, Option.bind_eq_bind, Option.bind_eq_some_iff] at h
  obtain ⟨-, -, ⟨-, -⟩, -, -, -, ⟨-, -⟩, -, s, -, ⟨t, r⟩, hrun, -, -, -, -, ht⟩ := h
  obtain ⟨-, hne, hall, -⟩ := run?_eq_some hrun
  obtain rfl : t = target := by simpa using ht
  exact ⟨hne, fun hmem => by simpa using hall _ hmem⟩

/-- A path to a page ends with the last letter of its extension, in some case. -/
theorem not_isPage_of_lowerChar {s : Text} {c : Char} (hc : lowerChar c = [c]) (hd : c ≠ 'd') :
    Path.isPage (s ++ [c]) = false := by
  rw [Bool.eq_false_iff]
  intro h
  obtain ⟨r, hr⟩ := endsWith_iff.1 h
  have hlast := congrArg List.getLast? hr
  simp [lower, Path.pageExtension, hc] at hlast
  exact hd hlast.symm

/-- A page is told by what stands behind any separator that its extension has not. -/
theorem isPage_append {sep : Char} {stem : Text} (hs : IsStem sep stem)
    (hlower : lowerChar sep = [sep]) (hsep : sep ∉ Path.pageExtension) (s : Text) :
    Path.isPage (stem ++ s) = Path.isPage s := by
  have happend : lower (stem ++ s) = lower stem ++ lower s := List.flatMap_append
  have hstem : IsStem sep (lower stem) := by
    rcases hs with rfl | ⟨t, rfl⟩
    · exact Or.inl rfl
    · exact Or.inr ⟨lower t, by simp [lower, hlower]⟩
  rw [Bool.eq_iff_iff, Path.isPage, Path.isPage, endsWith_iff, endsWith_iff, happend]
  exact ⟨suffix_of_suffix_stem_append hstem hsep,
    fun h => h.trans (List.suffix_append (lower stem) (lower s))⟩

theorem isPage_numbered (n : Nat) (s : Text) :
    Path.isPage (pad n ++ '-' :: s) = Path.isPage s := by
  have hstem : IsStem '-' (pad n ++ ['-']) := Or.inr ⟨pad n, rfl⟩
  have hpage := isPage_append hstem (by decide) (by decide) s
  rwa [List.append_assoc, List.singleton_append] at hpage

theorem isName_of_isPage {stem name : Text} (hs : IsStem '/' stem) (hn : '/' ∉ name)
    (h : Path.isPage (stem ++ name) = true) : Path.IsName name := by
  have hdot : ∀ s : Text, Path.isPage (s ++ ['.']) = false :=
    fun s => not_isPage_of_lowerChar (by decide) (by decide)
  refine ⟨?_, ?_, ?_, hn⟩
  · rintro rfl
    rw [List.append_nil] at h
    rcases hs with rfl | ⟨t, rfl⟩
    · exact absurd h (by decide)
    · rw [not_isPage_of_lowerChar (by decide) (by decide)] at h
      exact absurd h (by decide)
  · rintro rfl
    rw [Path.here, hdot] at h
    exact absurd h (by decide)
  · rintro rfl
    rw [show stem ++ Path.above = (stem ++ ['.']) ++ ['.'] by simp [Path.above], hdot] at h
    exact absurd h (by decide)

/-- An entry is made of folders and the name of a page. -/
theorem exists_name_of_mem_entries {readme target : Text} (h : target ∈ entries readme) :
    ∃ stem name, IsStem '/' stem ∧ Path.IsName name ∧ ')' ∉ name ∧ target = stem ++ name := by
  obtain ⟨hitem, hlocal⟩ := List.mem_filter.1 h
  obtain ⟨line, -, hline⟩ := List.mem_filterMap.1 hitem
  obtain ⟨-, hparen⟩ := itemTarget?_eq_some hline
  obtain ⟨stem, name, hstem, hslash, rfl⟩ := exists_eq_stem_append '/' target
  rw [isLocalPage, Bool.and_eq_true] at hlocal
  exact ⟨stem, name, hstem, isName_of_isPage hstem hslash hlocal.2,
    fun hmem => hparen (List.mem_append_right _ hmem), rfl⟩

/-! ## New paths -/

/-- The new path is the old one with a number and a dash in front of its last name. -/
def Renumbers (old new : Text) : Prop :=
  ∃ stem name n, IsStem '/' stem ∧ Path.IsName name ∧ ')' ∉ name ∧ old = stem ++ name ∧
    new = stem ++ (pad n ++ '-' :: name)

theorem Renumbers.join {old new : Text} (h : Renumbers old new) (dir : Text) :
    Renumbers (Path.join dir old) (Path.join dir new) := by
  obtain ⟨stem, name, n, hstem, hname, hparen, rfl, rfl⟩ := h
  exact ⟨Path.joinStem dir stem, name, n, Path.isStem_joinStem dir stem, hname, hparen,
    Path.join_append dir hstem hname, Path.join_append dir hstem (isName_numbered hname n)⟩

theorem Renumbers.folder_eq {old new : Text} (h : Renumbers old new) :
    Path.folder new = Path.folder old := by
  obtain ⟨stem, name, n, hstem, hname, -, rfl, rfl⟩ := h
  have hnum := isName_numbered hname n
  exact Path.folder_append hstem hnum.ne_nil hnum.slash hname.ne_nil hname.slash

theorem Renumbers.ne {old new : Text} (h : Renumbers old new) : new ≠ old := by
  obtain ⟨stem, name, n, -, -, -, rfl, rfl⟩ := h
  intro he
  have hlen := congrArg List.length (List.append_cancel_left he)
  simp only [List.length_append, List.length_cons] at hlen
  omega

/-- **Different pages get different new paths.** -/
theorem Renumbers.inj {old old' new : Text} (h : Renumbers old new) (h' : Renumbers old' new) :
    old = old' := by
  obtain ⟨stem, name, n, hstem, hname, -, rfl, rfl⟩ := h
  obtain ⟨stem', name', n', hstem', hname', -, rfl, hnew⟩ := h'
  obtain ⟨rfl, hnum⟩ := stem_append_inj hstem hstem' (isName_numbered hname n).slash
    (isName_numbered hname' n').slash hnew
  obtain ⟨-, rfl⟩ := pad_append_dash_inj hnum
  rfl

/-- A new name is made for an entry without a number, at one of its places. -/
theorem exists_of_mem_newNames {readme old new : Text} (h : (old, new) ∈ newNames readme) :
    ∃ i, (entries readme)[i]? = some old ∧ isNumbered (splitLast '/' old).2 = false ∧
      new = numbered (i + 1) old := by
  obtain ⟨⟨target, i⟩, hmem, he⟩ := List.mem_map.1 (Table.mem_of_mem_ofPairs h)
  obtain ⟨hzip, hnumber⟩ := List.mem_filter.1 hmem
  obtain ⟨rfl, rfl⟩ := Prod.mk.inj he
  exact ⟨i, List.mem_zipIdx_iff_getElem?.1 hzip, by simpa using hnumber, rfl⟩

theorem renumbers_of_mem_newNames {readme old new : Text} (h : (old, new) ∈ newNames readme) :
    Renumbers old new := by
  obtain ⟨i, hi, -, rfl⟩ := exists_of_mem_newNames h
  obtain ⟨stem, name, hstem, hname, hparen, rfl⟩ :=
    exists_name_of_mem_entries (List.mem_of_getElem? hi)
  refine ⟨stem, name, i + 1, hstem, hname, hparen, rfl, ?_⟩
  simp only [numbered, splitLast_append hstem hname.slash, List.append_assoc]

theorem renumbers_of_mem_proposals {readme : Document} {old new : Text}
    (h : (old, new) ∈ proposals readme) : Renumbers old new := by
  obtain ⟨⟨target, name⟩, hmem, he⟩ := List.mem_map.1 h
  obtain ⟨rfl, rfl⟩ := Prod.mk.inj he
  exact (renumbers_of_mem_newNames hmem).join _

/-! ## The pages that are renamed -/

/-- The first readme that lists a page of the site decides. -/
theorem get?_renames (documents : List Document) (old : Text) :
    (renames documents).get? old =
      if documents.any fun d => d.path = old then
        (((readmes documents).flatMap proposals).find? fun e => e.1 = old).map Prod.snd
      else none := by
  have hkeep := Table.find?_filter_key ((readmes documents).flatMap proposals)
    (fun k => documents.any fun d => d.path = k) old
  rw [renames, Table.get?_foldl_first, Table.get?, Option.none_or]
  refine (congrArg (Option.map Prod.snd) hkeep).trans ?_
  split <;> rfl

/-- **A renamed page keeps its folder and its name, and gets a number.** -/
theorem renumbers_of_get?_renames {documents : List Document} {old new : Text}
    (h : (renames documents).get? old = some new) : Renumbers old new := by
  rw [get?_renames] at h
  split at h
  · obtain ⟨⟨old', new'⟩, hfind, rfl⟩ := Option.map_eq_some_iff.1 h
    obtain rfl : old' = old := by simpa using List.find?_some hfind
    obtain ⟨readme, -, hmem⟩ := List.mem_flatMap.1 (List.mem_of_find?_eq_some hfind)
    exact renumbers_of_mem_proposals hmem
  · cases h

theorem exists_of_get?_renames {documents : List Document} {old new : Text}
    (h : (renames documents).get? old = some new) : ∃ d ∈ documents, d.path = old := by
  rw [get?_renames] at h
  split at h
  · next hany => simpa using hany
  · cases h

end Numbering

end WikiTidy
