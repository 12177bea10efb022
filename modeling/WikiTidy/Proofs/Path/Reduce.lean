import Mathlib.Data.List.Induction
import WikiTidy.Proofs.Path.LastName

/-!
# Names that are reduced

Reducing names leaves proper ones alone, and nothing but proper names is left of names below the
root. Behind proper names it goes name by name: an empty name and `.` are dropped, and `..` takes
back the name in front of it.
-/

namespace WikiTidy.Path

variable {rooted : Bool} {name : Text} {names folder : List Text}

theorem foldl_push (h : ∀ name ∈ names, IsName name) (acc : List Text) :
    names.foldl (push rooted) acc = names.reverse ++ acc := by
  induction names generalizing acc with
  | nil => rfl
  | cons name names ih =>
    obtain ⟨hname, hnames⟩ := List.forall_mem_cons.1 h
    rw [List.foldl_cons, push_of_isName hname, ih hnames]
    simp

theorem reduce_eq_self (h : ∀ name ∈ names, IsName name) : reduce rooted names = names := by
  rw [reduce, foldl_push h, List.append_nil, List.reverse_reverse]

theorem isName_of_mem_reduce (hnames : ∀ name ∈ names, '/' ∉ name) (h : name ∈ reduce true names) :
    IsName name := by
  suffices hfold : ∀ acc, (∀ n ∈ acc, IsName n) →
      ∀ n ∈ names.foldl (push true) acc, IsName n by
    exact hfold [] (by simp) name (List.mem_reverse.1 h)
  clear h
  induction names with
  | nil => exact fun acc hacc => hacc
  | cons first names ih =>
    obtain ⟨hfirst, hnames⟩ := List.forall_mem_cons.1 hnames
    intro acc hacc
    refine ih hnames _ ?_
    unfold push
    split
    · exact hacc
    · next hskip =>
      rw [not_or] at hskip
      split
      · next habove =>
        split
        · simp
        · next last rest =>
          obtain ⟨hlast, hrest⟩ := List.forall_mem_cons.1 hacc
          rw [if_neg hlast.ne_above]
          exact hrest
      · next habove => exact List.forall_mem_cons.2 ⟨⟨hskip.1, hskip.2, habove, hfirst⟩, hacc⟩

/-! ## Behind proper names -/

theorem reduce_folder (hfolder : ∀ name ∈ folder, IsName name) (names : List Text) :
    reduce rooted (folder ++ names) = (names.foldl (push rooted) folder.reverse).reverse := by
  rw [reduce, List.foldl_append, foldl_push hfolder, List.append_nil]

/-- The name stands for the folder itself. -/
def isIdle (name : Text) : Bool := name = [] || name = here

theorem reduce_idle (hfolder : ∀ name ∈ folder, IsName name) (hname : isIdle name = true) :
    reduce rooted (folder ++ name :: names) = reduce rooted (folder ++ names) := by
  have hskip : name = [] ∨ name = here := by simpa [isIdle] using hname
  have hpush : push rooted folder.reverse name = folder.reverse := if_pos hskip
  rw [reduce_folder hfolder, reduce_folder hfolder, List.foldl_cons, hpush]

/-- `..` takes back the last name; above the root is the root. -/
theorem reduce_above (hfolder : ∀ name ∈ folder, IsName name) :
    reduce true (folder ++ above :: names) = reduce true (folder.dropLast ++ names) := by
  have hdrop : ∀ name ∈ folder.dropLast, IsName name :=
    fun name hname => hfolder name (folder.dropLast_subset hname)
  have hpush : push true folder.reverse above = folder.dropLast.reverse := by
    cases folder using List.reverseRecOn with
    | nil => rfl
    | append_singleton folder last =>
      have hlast := hfolder last (by simp)
      simp [push, hlast.ne_above, show above ≠ [] by decide, show above ≠ here by decide]
  rw [reduce_folder hfolder, reduce_folder hdrop, List.foldl_cons, hpush]

/-- Without `..` all proper names are kept. -/
theorem reduce_of_notMem_above (hfolder : ∀ name ∈ folder, IsName name)
    (hslash : ∀ name ∈ names, '/' ∉ name) (habove : above ∉ names) :
    reduce rooted (folder ++ names) = folder ++ names.filter fun name => !isIdle name := by
  induction names generalizing folder with
  | nil => rw [List.append_nil, reduce_eq_self hfolder]; simp
  | cons name names ih =>
    obtain ⟨hname, hslash⟩ := List.forall_mem_cons.1 hslash
    rw [List.mem_cons, not_or] at habove
    cases hidle : isIdle name with
    | true => rw [reduce_idle hfolder hidle, ih hfolder hslash habove.2]; simp [hidle]
    | false =>
      have hproper : IsName name := by
        have hskip : name ≠ [] ∧ name ≠ here := by simpa [isIdle] using hidle
        exact ⟨hskip.1, hskip.2, Ne.symm habove.1, hname⟩
      have hnext : ∀ n ∈ folder ++ [name], IsName n :=
        List.forall_mem_append.2 ⟨hfolder, by simpa using hproper⟩
      rw [List.append_cons, ih hnext hslash habove.2]
      simp [hidle]

end WikiTidy.Path
