import Mathlib.Data.List.Find
import Mathlib.Data.List.Induction
import WikiTidy.Proofs.Numbering.Again

/-!
# The number that an index gives to a page

A table of new names keeps the first place of a key and its last value. So of the entries that lead
to one page the first counts, and the number is the place of the last entry that is spelled like it
(`number?`, `number?_eq_some_iff`).

**Theorem (`get?_renames_eq`).** The new path of a page is its path with the number from the first
readme that has one for it. A page that is not on the site, or has a number, has no new path.
-/

namespace WikiTidy

open Text

namespace Numbering

variable {documents : List Document} {r d : Document} {dir path target : Text}
  {targets : List Text} {n : Nat}

/-! ## The number of a page -/

/-- The number of the page that `path` leads to, in an index of the folder `dir`. The first entry
that leads there counts, and the number is the place of the last entry that is spelled like it. -/
def IsNumber (dir path : Text) (targets : List Text) (n : Nat) : Prop :=
  ∃ front target back, targets = front ++ target :: back ∧ Path.join dir target = path ∧
    (∀ t ∈ front, Path.join dir t ≠ path) ∧
    ∃ before after, targets = before ++ target :: after ∧ target ∉ after ∧ n = before.length + 1

/-- The last place of a target, counted from one. -/
def lastPlace (target : Text) (targets : List Text) : Nat :=
  targets.length - targets.reverse.idxOf target

/-- The number of a page, if the index lists it. -/
def number? (dir path : Text) (targets : List Text) : Option Nat :=
  (targets.find? fun target => Path.join dir target = path).map fun target =>
    lastPlace target targets

theorem lastPlace_append_cons (target other : Text) (before after : List Text) :
    lastPlace target (before ++ other :: after) =
      if target ∈ after then before.length + 1 + lastPlace target after
      else if other = target then before.length + 1 else lastPlace target before := by
  have hreverse : (before ++ other :: after).reverse =
      after.reverse ++ other :: before.reverse := by simp
  rw [lastPlace, hreverse, List.length_append, List.length_cons]
  by_cases hmem : target ∈ after
  · have hlt := List.idxOf_lt_length_of_mem (List.mem_reverse.2 hmem)
    rw [List.idxOf_append_of_mem (List.mem_reverse.2 hmem), if_pos hmem, lastPlace]
    rw [List.length_reverse] at hlt
    omega
  · rw [List.idxOf_append_of_notMem (by simpa using hmem), if_neg hmem, List.length_reverse]
    by_cases h : other = target
    · rw [if_pos h, h, List.idxOf_cons_self]
      omega
    · rw [if_neg h, List.idxOf_cons_ne _ h, lastPlace]
      omega

theorem lastPlace_append {before after : List Text} (h : target ∉ after) :
    lastPlace target (before ++ target :: after) = before.length + 1 := by
  simp [lastPlace_append_cons, h]

theorem lastPlace_concat (target last : Text) (targets : List Text) :
    lastPlace target (targets ++ [last]) =
      if last = target then targets.length + 1 else lastPlace target targets := by
  simp [lastPlace_append_cons]

theorem exists_eq_append_of_mem (h : target ∈ targets) :
    ∃ before after, targets = before ++ target :: after ∧ target ∉ after := by
  obtain ⟨after, before, hsplit, hno⟩ := List.eq_append_cons_of_mem (List.mem_reverse.2 h)
  refine ⟨before.reverse, after.reverse, ?_, by simpa using hno⟩
  rw [← List.reverse_reverse targets, hsplit]
  simp

theorem number?_eq_some_iff : number? dir path targets = some n ↔ IsNumber dir path targets n := by
  rw [number?, Option.map_eq_some_iff]
  constructor
  · rintro ⟨target, hfind, rfl⟩
    obtain ⟨hleads, front, back, heq, hfront⟩ := List.find?_eq_some_iff_append.1 hfind
    obtain ⟨before, after, hlast, hno⟩ :=
      exists_eq_append_of_mem (List.mem_of_find?_eq_some hfind)
    refine ⟨front, target, back, heq, by simpa using hleads, by simpa using hfront, before, after,
      hlast, hno, ?_⟩
    rw [hlast, lastPlace_append hno]
  · rintro ⟨front, target, back, heq, hleads, hfront, before, after, hlast, hno, rfl⟩
    refine ⟨target, ?_, by rw [hlast, lastPlace_append hno]⟩
    exact List.find?_eq_some_iff_append.2
      ⟨by simpa using hleads, front, back, heq, by simpa using hfront⟩

theorem number?_eq_none_iff :
    number? dir path targets = none ↔ ∀ target ∈ targets, Path.join dir target ≠ path := by
  simp [number?]

/-! ## New names -/

/-- The new names that a list of entries gives. -/
def namesOf (targets : List Text) : Table Text Text :=
  Table.ofPairs ((targets.zipIdx.filter fun (target, _) =>
    !isNumbered (splitLast '/' target).2).map fun (target, i) => (target, numbered (i + 1) target))

theorem namesOf_concat (targets : List Text) (last : Text) :
    namesOf (targets ++ [last]) =
      if isNumbered (splitLast '/' last).2 then namesOf targets
      else (namesOf targets).put last (numbered (targets.length + 1) last) := by
  rw [namesOf, List.zipIdx_append, List.filter_append, List.map_append]
  cases hnumber : isNumbered (splitLast '/' last).2 with
  | true => simp [namesOf, hnumber]
  | false => simp [namesOf, hnumber, Table.ofPairs_concat]

/-- The name of an entry has the number of its last place. -/
theorem get?_namesOf (hmem : target ∈ targets)
    (hnumber : isNumbered (splitLast '/' target).2 = false) :
    (namesOf targets).get? target = some (numbered (lastPlace target targets) target) := by
  induction targets using List.reverseRecOn with
  | nil => cases hmem
  | append_singleton targets last ih =>
    rw [namesOf_concat, lastPlace_concat]
    by_cases h : last = target
    · simp [h, hnumber]
    · have hmem' : target ∈ targets := by simpa [Ne.symm h] using hmem
      rw [if_neg h, ← ih hmem']
      split
      · rfl
      · rw [Table.get?_put, if_neg h]

/-- The names stand in the order of the first places of their entries. -/
theorem find?_keys_namesOf (p : Text → Bool) (targets : List Text) :
    (namesOf targets).keys.find? p =
      (targets.filter fun target => !isNumbered (splitLast '/' target).2).find? p := by
  have hfilter : (targets.zipIdx.filter fun e => !isNumbered (splitLast '/' e.1).2).map Prod.fst =
      targets.filter fun target => !isNumbered (splitLast '/' target).2 := by
    conv => rhs; rw [← List.zipIdx_map_fst 0 targets, List.filter_map]
    rfl
  rw [namesOf, Table.find?_keys_ofPairs, List.map_map, ← hfilter]
  rfl

/-! ## New paths -/

theorem join_numbered {readme : Text} (h : target ∈ entries readme) (dir : Text) (n : Nat) :
    Path.join dir (numbered n target) = numbered n (Path.join dir target) := by
  obtain ⟨stem, name, hstem, hname, -, rfl⟩ := exists_name_of_mem_entries h
  have hnum := isName_numbered hname n
  simp only [numbered, splitLast_append hstem hname.slash, Path.join_append dir hstem hname,
    splitLast_append (Path.isStem_joinStem dir stem) hname.slash, List.append_assoc,
    Path.join_append dir hstem hnum]

/-- The entries of a page are all left out or none, because they have its name. -/
theorem find?_filter_entries (readme dir path : Text) :
    ((entries readme).filter fun t => !isNumbered (splitLast '/' t).2).find?
        (fun t => Path.join dir t = path) =
      if isNumbered (Path.leaf path) then none
      else (entries readme).find? fun t => Path.join dir t = path := by
  have hname : ∀ t ∈ entries readme, Path.join dir t = path →
      (splitLast '/' t).2 = Path.leaf path := by
    rintro t ht rfl
    exact (leaf_join_of_mem_entries ht _).symm
  rw [List.find?_filter]
  split
  · next hnumber =>
    rw [List.find?_eq_none]
    intro t ht
    simp only [Bool.not_eq_true', decide_eq_true_eq, not_and]
    intro hno hpath
    rw [hname t ht hpath, hnumber] at hno
    cases hno
  · next hnumber =>
    refine List.find?_congr fun t ht => ?_
    by_cases hpath : Path.join dir t = path
    · simp [hpath, hname t ht hpath, hnumber]
    · simp [hpath]

/-- **What a readme says about a page.** -/
theorem find?_proposals (r : Document) (path : Text) :
    ((proposals r).find? fun e => e.1 = path).map Prod.snd =
      if isNumbered (Path.leaf path) then none
      else (number? (Path.folder r.path) path (entries r.updated)).map fun n =>
        numbered n path := by
  have hproposals : proposals r = (namesOf (entries r.updated)).map fun e =>
      (Path.join (Path.folder r.path) e.1, Path.join (Path.folder r.path) e.2) := rfl
  have hfind := Table.find?_eq_bind (fun t => Path.join (Path.folder r.path) t = path)
    (namesOf (entries r.updated))
  rw [find?_keys_namesOf, find?_filter_entries] at hfind
  rw [hproposals, List.find?_map, Option.map_map]
  refine (congrArg (Option.map _) hfind).trans ?_
  split
  · rfl
  · next hnumber =>
    rw [number?]
    cases hentry : (entries r.updated).find? fun t => Path.join (Path.folder r.path) t = path with
    | none => rfl
    | some t =>
      have ht := List.mem_of_find?_eq_some hentry
      obtain rfl : Path.join (Path.folder r.path) t = path := by simpa using List.find?_some hentry
      rw [leaf_join_of_mem_entries ht, Bool.not_eq_true] at hnumber
      simp [get?_namesOf ht hnumber, join_numbered ht]

/-- **The new path of a page** has the number from the first readme that lists the page. -/
theorem get?_renames_eq (documents : List Document) (path : Text) :
    (renames documents).get? path =
      if (documents.any fun d => d.path = path) && !isNumbered (Path.leaf path) then
        ((readmes documents).findSome? fun r =>
          number? (Path.folder r.path) path (entries r.updated)).map fun n => numbered n path
      else none := by
  rw [get?_renames, List.find?_flatMap, List.map_findSome?]
  have hproposals : (Option.map Prod.snd ∘ fun r => (proposals r).find? fun e => e.1 = path) =
      fun r => ((proposals r).find? fun e => e.1 = path).map Prod.snd := rfl
  simp only [hproposals, find?_proposals]
  cases hnumber : isNumbered (Path.leaf path) with
  | true => simp
  | false => simp [List.map_findSome?, Function.comp_def]

end Numbering

end WikiTidy
