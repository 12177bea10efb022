import WikiTidy.Path
import WikiTidy.Proofs.Text.Split

/-!
# The last name of a path

Cleaning a path works on the names in front of its last one and carries the last one over, as long
as it is a proper name and not one of the dot names. So a path that is joined to a folder is the
same stem with the same name behind it, whatever the name is (`join_append`): to change the last
name before joining or after joining comes to the same, and neither leaves the folder
(`folder_append`).
-/

namespace WikiTidy.Path

open Text

/-- A name that leads into a folder: it is not empty, none of the two dot names, and has no
slash. -/
structure IsName (name : Text) : Prop where
  ne_nil : name ≠ []
  ne_here : name ≠ here
  ne_above : name ≠ above
  slash : '/' ∉ name

variable {s name other : Text}

theorem push_of_isName (h : IsName name) (rooted : Bool) (names : List Text) :
    push rooted names name = name :: names := by
  simp [push, h.ne_nil, h.ne_here, h.ne_above]

theorem getLast?_append_ne_slash (h : IsName name) : (s ++ name).getLast? ≠ some '/' := by
  intro hlast
  rw [List.getLast?_append, List.getLast?_eq_some_getLast h.ne_nil, Option.some_or,
    Option.some.injEq] at hlast
  exact h.slash (hlast ▸ List.getLast_mem h.ne_nil)

theorem push_nil (rooted : Bool) (names : List Text) : push rooted names [] = names := by
  simp [push]

/-! ## Cleaning -/

/-- The part of a clean path that comes from a stem. -/
def cleanStem (s : Text) : Text :=
  (if isRooted s then ['/'] else []) ++ (reduce (isRooted s) (split '/' s)).flatMap (· ++ ['/'])

theorem isStem_cleanStem (s : Text) : IsStem '/' (cleanStem s) := by
  refine isStem_append ?_ (isStem_flatMap _)
  split
  · exact Or.inr ⟨[], rfl⟩
  · exact Or.inl rfl

theorem isRooted_append (hs : IsStem '/' s) (hn : '/' ∉ name) :
    isRooted (s ++ name) = isRooted s := by
  rcases hs with rfl | ⟨t, rfl⟩
  · cases name with
    | nil => rfl
    | cons c name =>
      have hc : c ≠ '/' := fun h => hn (by simp [h])
      simp [isRooted, hc]
  · cases t <;> simp [isRooted]

theorem reduce_append (hs : IsStem '/' s) (hn : IsName name) (rooted : Bool) :
    reduce rooted (split '/' (s ++ name)) = reduce rooted (split '/' s) ++ [name] := by
  rcases hs with rfl | ⟨t, rfl⟩
  · rw [List.nil_append, split_of_notMem hn.slash, split_of_notMem (by simp)]
    simp [reduce, push_of_isName hn, push_nil]
  · rw [List.append_assoc, List.singleton_append, split_append_sep, split_append_sep,
      split_of_notMem hn.slash, split_of_notMem (s := []) (by simp)]
    simp [reduce, List.foldl_append, push_of_isName hn, push_nil]

/-- **Cleaning keeps the last name.** -/
theorem clean_append (hs : IsStem '/' s) (hn : IsName name) :
    clean (s ++ name) = cleanStem s ++ name := by
  obtain ⟨first, rest, hnames⟩ := List.exists_cons_of_ne_nil
    (show reduce (isRooted s) (split '/' s) ++ [name] ≠ [] by simp)
  unfold clean
  simp only [isRooted_append hs hn.slash, reduce_append hs hn,
    if_neg (getLast?_append_ne_slash hn), List.append_nil, hnames]
  rw [← hnames, join_concat, cleanStem, List.append_assoc]

/-- A slash at the end of a path stays there. -/
theorem getLast?_clean (h : s.getLast? = some '/') : (clean s).getLast? = some '/' := by
  unfold clean
  simp only [if_pos h]
  split
  · split
    · rfl
    · rfl
  · rw [List.getLast?_concat]

/-! ## Joining -/

/-- What a folder puts in front of a path. -/
def lead (folder : Text) : Text := if folder = [] then [] else folder ++ ['/']

theorem isStem_lead (folder : Text) : IsStem '/' (lead folder) := by
  unfold lead
  split
  · exact Or.inl rfl
  · exact Or.inr ⟨folder, rfl⟩

theorem join_eq_clean (folder : Text) {path : Text} (h : path ≠ []) :
    join folder path = clean (lead folder ++ path) := by
  by_cases hf : folder = []
  · simp [join, lead, hf, h, Text.join, List.intercalate]
  · simp [join, lead, hf, h, Text.join, List.intercalate]

/-- The stem of a path that is taken from a folder. -/
def joinStem (folder s : Text) : Text := cleanStem (lead folder ++ s)

theorem isStem_joinStem (folder s : Text) : IsStem '/' (joinStem folder s) := isStem_cleanStem _

/-- **Joining keeps the last name**, and what stands before it does not depend on the name. -/
theorem join_append (folder : Text) (hs : IsStem '/' s) (hn : IsName name) :
    join folder (s ++ name) = joinStem folder s ++ name := by
  rw [join_eq_clean folder (by simp [hn.ne_nil]), ← List.append_assoc,
    clean_append (isStem_append (isStem_lead folder) hs) hn, joinStem]

/-- A path that ends with a slash leads to nothing that ends with a name. -/
theorem join_ne_append (folder t : Text) (hn : IsName name) :
    join folder (t ++ ['/']) ≠ s ++ name := by
  intro h
  have hlast : (join folder (t ++ ['/'])).getLast? = some '/' := by
    rw [join_eq_clean folder (by simp)]
    exact getLast?_clean (by rw [← List.append_assoc, List.getLast?_concat])
  exact getLast?_append_ne_slash hn (h ▸ hlast)

/-! ## Taking the last name off -/

theorem dropWhile_slash (hne : name ≠ []) (hn : '/' ∉ name) :
    (s ++ name).reverse.dropWhile (· == '/') = (s ++ name).reverse := by
  obtain ⟨c, r, hr⟩ := List.exists_cons_of_ne_nil (show name.reverse ≠ [] by simpa using hne)
  have hc : c ≠ '/' := by
    rintro rfl
    exact hn (List.mem_reverse.1 (hr ▸ List.mem_cons_self))
  rw [List.reverse_append, hr, List.cons_append, List.dropWhile_cons, if_neg (by simpa using hc)]

theorem leaf_append (hs : IsStem '/' s) (hne : name ≠ []) (hn : '/' ∉ name) :
    leaf (s ++ name) = name := by
  have hcut : leaf (s ++ name) = (splitLast '/' (s ++ name)).2 := by
    rw [leaf, dropWhile_slash hne hn, splitLast]
  rw [hcut, splitLast_append hs hn]

theorem dropWhile_dropWhile_slash {t : Text} (ht : '/' ∉ t) :
    (t.reverse.dropWhile (· == '/')).dropWhile (· != '/') = [] :=
  dropWhile_ne_eq_nil fun h => ht (List.mem_reverse.1 ((List.dropWhile_sublist _).subset h))

theorem folder_name (hne : name ≠ []) (hn : '/' ∉ name) : folder name = here := by
  cases name with
  | nil => exact absurd rfl hne
  | cons c r =>
    simp only [List.mem_cons, not_or] at hn
    simp only [folder, dropWhile_dropWhile_slash hn.2, if_neg (Ne.symm hn.1)]

/-- The folder of whatever stands behind a slash. -/
theorem folder_slash (t : Text) (hne : name ≠ []) (hn : '/' ∉ name) :
    folder (t ++ '/' :: name) =
      match t with
      | [] => ['/']
      | first :: before => if first = '/' ∧ before = [] then ['/', '/'] else first :: before := by
  have hdrop : ∀ u, ((u ++ '/' :: name).reverse.dropWhile (· == '/')).dropWhile (· != '/') =
      '/' :: u.reverse := by
    intro u
    have h := dropWhile_slash (s := u ++ ['/']) hne hn
    rw [List.append_assoc, List.singleton_append] at h
    rw [h, List.reverse_append, List.reverse_cons, List.append_assoc, List.singleton_append,
      dropWhile_ne_of_notMem (by simpa using hn)]
  cases t with
  | nil =>
    simp only [List.nil_append, folder, dropWhile_dropWhile_slash hn, if_true]
  | cons first before =>
    simp only [List.cons_append, folder, hdrop, List.reverse_eq_nil_iff, List.reverse_reverse]

/-- **The folder depends on the stem alone.** -/
theorem folder_append (hs : IsStem '/' s) (hne : name ≠ []) (hn : '/' ∉ name) (hne' : other ≠ [])
    (hn' : '/' ∉ other) : folder (s ++ name) = folder (s ++ other) := by
  rcases hs with rfl | ⟨t, rfl⟩
  · rw [List.nil_append, List.nil_append, folder_name hne hn, folder_name hne' hn']
  · rw [List.append_assoc, List.append_assoc, List.singleton_append, List.singleton_append,
      folder_slash t hne hn, folder_slash t hne' hn']

end WikiTidy.Path
