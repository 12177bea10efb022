/-!
# Tables in order of insertion

A table is a list of keys with their values in which each key stands once. `put` gives a key a
value: a new key goes to the end, a key that is there keeps its place. `ofPairs` reads a list of
pairs the same way, so that of several values for one key the last one counts, at the place of the
first.
-/

namespace WikiTidy

/-- Keys with their values, in the order in which the keys were first put. -/
abbrev Table (κ ν : Type) := List (κ × ν)

namespace Table

variable {κ ν : Type} [DecidableEq κ]

/-- The value of a key. -/
def get? (key : κ) : Table κ ν → Option ν
  | [] => none
  | (k, v) :: t => if k = key then some v else get? key t

/-- The key is in the table. -/
def has (key : κ) (t : Table κ ν) : Bool := (t.get? key).isSome

/-- Changes the value of a key, which is put at the end if it is new. -/
def update (key : κ) (f : Option ν → ν) : Table κ ν → Table κ ν
  | [] => [(key, f none)]
  | (k, v) :: t => if k = key then (k, f (some v)) :: t else (k, v) :: update key f t

/-- Gives a key a value. -/
def put (key : κ) (value : ν) (t : Table κ ν) : Table κ ν := t.update key fun _ => value

/-- The keys in order. -/
def keys (t : Table κ ν) : List κ := t.map Prod.fst

/-- All of one table put on top of another. -/
def putAll (t : Table κ ν) (pairs : List (κ × ν)) : Table κ ν :=
  pairs.foldl (fun t (k, v) => t.put k v) t

/-- The table of a list of pairs. -/
def ofPairs (pairs : List (κ × ν)) : Table κ ν := putAll [] pairs

/-! ## What a change does -/

theorem get?_update (key k : κ) (f : Option ν → ν) (t : Table κ ν) :
    (t.update key f).get? k = if key = k then some (f (t.get? key)) else t.get? k := by
  induction t with
  | nil => simp [update, get?]
  | cons e t ih =>
    obtain ⟨k', v⟩ := e
    by_cases h : k' = key
    · subst h; by_cases hk : k' = k <;> simp [update, get?, hk]
    · by_cases hk : k' = k
      · subst hk
        have h' : ¬ key = k' := fun e => h e.symm
        simp [update, get?, h, h']
      · simp [update, get?, h, hk, ih]

/-- A key reads back the value it was given, and no other key is touched. -/
@[simp] theorem get?_put (key k : κ) (value : ν) (t : Table κ ν) :
    (t.put key value).get? k = if key = k then some value else t.get? k :=
  get?_update key k _ t

theorem get?_eq_none_iff {key : κ} {t : Table κ ν} : t.get? key = none ↔ key ∉ t.keys := by
  induction t with
  | nil => simp [get?, keys]
  | cons e t ih =>
    obtain ⟨k, v⟩ := e
    by_cases h : k = key
    · simp [get?, keys, h]
    · have h' : ¬ key = k := fun e => h e.symm
      simp only [keys] at ih
      simp [get?, keys, h, h', ih]

/-- A change leaves the keys as they are, or adds its own at the end. -/
theorem keys_update (key : κ) (f : Option ν → ν) (t : Table κ ν) :
    (t.update key f).keys = if key ∈ t.keys then t.keys else t.keys ++ [key] := by
  induction t with
  | nil => simp [update, keys]
  | cons e t ih =>
    obtain ⟨k, v⟩ := e
    by_cases h : k = key
    · simp [update, keys, h]
    · have h' : ¬ key = k := fun e => h e.symm
      simp only [keys] at ih
      by_cases hm : key ∈ List.map Prod.fst t <;> simp_all [update, keys]

theorem nodup_keys_update {key : κ} {f : Option ν → ν} {t : Table κ ν} (h : t.keys.Nodup) :
    (t.update key f).keys.Nodup := by
  rw [keys_update]
  split
  · exact h
  · next hk => exact List.nodup_append.2 ⟨h, by simp, by simp; rintro a ha rfl; exact hk ha⟩

theorem nodup_keys_put {key : κ} {value : ν} {t : Table κ ν} (h : t.keys.Nodup) :
    (t.put key value).keys.Nodup := nodup_keys_update h

/-- No key stands twice in a table read from pairs. -/
theorem nodup_keys_ofPairs (pairs : List (κ × ν)) : (ofPairs pairs).keys.Nodup := by
  suffices h : ∀ t : Table κ ν, t.keys.Nodup → (putAll t pairs).keys.Nodup from
    h [] (by simp [keys])
  unfold putAll
  induction pairs with
  | nil => exact fun _ h => h
  | cons e pairs ih => exact fun t h => ih _ (nodup_keys_put h)

/-! ## Where an entry comes from -/

theorem mem_of_mem_put {key : κ} {value : ν} {t : Table κ ν} {e : κ × ν}
    (h : e ∈ t.put key value) : e = (key, value) ∨ e ∈ t := by
  induction t with
  | nil => exact Or.inl (by simpa [put, update] using h)
  | cons e' t ih =>
    obtain ⟨k, v⟩ := e'
    by_cases hk : k = key
    · subst hk
      simp only [put, update, if_pos, List.mem_cons] at h
      exact h.imp_right (List.mem_cons_of_mem _)
    · simp only [put, update, if_neg hk, List.mem_cons] at h
      rcases h with rfl | h
      · exact Or.inr List.mem_cons_self
      · exact (ih h).imp_right (List.mem_cons_of_mem _)

theorem mem_of_mem_ofPairs {pairs : List (κ × ν)} {e : κ × ν} (h : e ∈ ofPairs pairs) :
    e ∈ pairs := by
  suffices hall : ∀ t : Table κ ν, e ∈ putAll t pairs → e ∈ t ∨ e ∈ pairs by
    simpa using hall [] h
  clear h
  induction pairs with
  | nil => exact fun t h => Or.inl h
  | cons e' pairs ih =>
    obtain ⟨k, v⟩ := e'
    intro t h
    rcases ih _ h with h | h
    · rcases mem_of_mem_put h with rfl | h
      · exact Or.inr List.mem_cons_self
      · exact Or.inl h
    · exact Or.inr (List.mem_cons_of_mem _ h)

end Table

end WikiTidy
