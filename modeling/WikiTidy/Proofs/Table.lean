import Mathlib.Data.List.Basic
import Mathlib.Data.List.Find
import Mathlib.Data.List.Induction
import WikiTidy.Table

/-!
# Tables and the pairs they are read from

A table has one entry for each key, so a lookup is a search for the entry (`get?_eq_find?`). Read
from pairs, it has the keys of the pairs in the order in which they come first (`find?_keys_ofPairs`),
and for each key the value that comes last (`get?_ofPairs`); a table in which the first value counts
is read with `has` as its guard (`get?_foldl_first`).
-/

namespace WikiTidy.Table

variable {κ ν μ : Type} [DecidableEq κ] {t : Table κ ν} {key : κ} {value : ν}

/-! ## Lookups -/

theorem get?_eq_find? (t : Table κ ν) (key : κ) :
    t.get? key = (t.find? fun e => e.1 = key).map Prod.snd := by
  induction t with
  | nil => rfl
  | cons e t ih =>
    by_cases hk : e.1 = key
    · simp [get?, hk]
    · simp [get?, hk, ih]

theorem get?_of_mem (h : t.keys.Nodup) (hmem : (key, value) ∈ t) : t.get? key = some value := by
  induction t with
  | nil => cases hmem
  | cons e t ih =>
    obtain ⟨k, v⟩ := e
    obtain ⟨hk, ht⟩ := List.nodup_cons.1 h
    rcases List.mem_cons.1 hmem with heq | hmem
    · obtain ⟨rfl, rfl⟩ := Prod.mk.inj heq
      exact if_pos rfl
    · have hne : k ≠ key := by
        rintro rfl
        exact hk (List.mem_map.2 ⟨_, hmem, rfl⟩)
      rw [Table.get?, if_neg hne, ih ht hmem]

theorem mem_of_get? (h : t.get? key = some value) : (key, value) ∈ t := by
  rw [get?_eq_find?, Option.map_eq_some_iff] at h
  obtain ⟨e, he, rfl⟩ := h
  obtain rfl : e.1 = key := by simpa using List.find?_some he
  exact List.mem_of_find?_eq_some he

/-- Only the keys that are looked for matter when others are left out. -/
theorem find?_filter_key (pairs : List (κ × ν)) (keep : κ → Bool) (key : κ) :
    ((pairs.filter fun e => keep e.1).find? fun e => e.1 = key) =
      if keep key then pairs.find? fun e => e.1 = key else none := by
  induction pairs with
  | nil => simp
  | cons e pairs ih =>
    by_cases hk : e.1 = key
    · cases hkeep : keep key with
      | false => simpa [hk, hkeep] using ih
      | true => simp [hk, hkeep]
    · cases hkeep : keep e.1 with
      | false => simpa [hk, hkeep] using ih
      | true => simpa [hk, hkeep] using ih

theorem get?_filter_key (t : Table κ ν) (keep : κ → Bool) (key : κ) :
    get? key (t.filter fun e => keep e.1) = if keep key then t.get? key else none := by
  rw [get?_eq_find?, find?_filter_key, get?_eq_find?]
  split
  · rfl
  · rfl

theorem find?_eq_bind (p : κ → Bool) (t : Table κ ν) :
    t.find? (fun e => p e.1) = (t.keys.find? p).bind fun k => (t.get? k).map fun v => (k, v) := by
  induction t with
  | nil => rfl
  | cons e t ih =>
    have hkeys : keys (e :: t) = e.1 :: keys t := rfl
    by_cases hp : p e.1
    · simp [hkeys, get?, hp]
    · have hskip := List.find?_cons_of_neg (p := fun e => p e.1) (l := t) hp
      rw [hskip, hkeys, List.find?_cons_of_neg hp, ih]
      cases hfind : (keys t).find? p with
      | none => rfl
      | some k =>
        have hne : e.1 ≠ k := fun h => hp (h ▸ List.find?_some hfind)
        simp [get?, hne]

/-! ## Tables that are read from pairs -/

theorem mem_keys_update {key k : κ} {f : Option ν → ν} {t : Table κ ν} :
    k ∈ (t.update key f).keys ↔ k = key ∨ k ∈ t.keys := by
  rw [keys_update]
  split
  · next hmem => exact ⟨Or.inr, fun h => h.elim (fun hk => hk ▸ hmem) id⟩
  · rw [List.mem_append, List.mem_singleton, or_comm]

theorem ofPairs_concat (pairs : List (κ × ν)) (e : κ × ν) :
    ofPairs (pairs ++ [e]) = (ofPairs pairs).put e.1 e.2 :=
  List.foldl_concat _ [] e pairs

theorem mem_keys_ofPairs {pairs : List (κ × ν)} :
    key ∈ (ofPairs pairs).keys ↔ key ∈ pairs.map Prod.fst := by
  induction pairs using List.reverseRecOn with
  | nil => rfl
  | append_singleton pairs e ih =>
    rw [ofPairs_concat, put, mem_keys_update, ih, List.map_append, List.mem_append,
      List.map_singleton, List.mem_singleton, or_comm]

/-- The first key with a property is the first one that was put. -/
theorem find?_keys_ofPairs (p : κ → Bool) (pairs : List (κ × ν)) :
    (ofPairs pairs).keys.find? p = (pairs.map Prod.fst).find? p := by
  induction pairs using List.reverseRecOn with
  | nil => rfl
  | append_singleton pairs e ih =>
    rw [ofPairs_concat, put, keys_update, List.map_append, List.find?_append, ← ih]
    split
    · next hmem =>
      -- The key is there, so it was found before if it has the property.
      cases hfind : (ofPairs pairs).keys.find? p with
      | some k => rfl
      | none => simpa using List.find?_eq_none.1 hfind e.1 hmem
    · rw [List.find?_append]
      rfl

/-- Of several values for one key the last one counts. -/
theorem get?_ofPairs (pairs : List (κ × ν)) (key : κ) :
    (ofPairs pairs).get? key = (pairs.filter fun e => e.1 = key).getLast?.map Prod.snd := by
  induction pairs using List.reverseRecOn with
  | nil => rfl
  | append_singleton pairs e ih =>
    rw [ofPairs_concat, get?_put, ih, List.filter_append]
    by_cases hk : e.1 = key
    · simp [hk]
    · simp [hk]

theorem put_map (f : ν → μ) (key : κ) (value : ν) (t : Table κ ν) :
    put key (f value) (t.map fun e => (e.1, f e.2)) =
      (t.put key value).map fun e => (e.1, f e.2) := by
  induction t with
  | nil => rfl
  | cons e t ih =>
    simp only [put] at ih
    by_cases hk : e.1 = key
    · simp [put, update, hk]
    · simp [put, update, hk, ih]

/-- Changing the values before a table is read is changing them in the table. -/
theorem ofPairs_map (f : ν → μ) (pairs : List (κ × ν)) :
    ofPairs (pairs.map fun e => (e.1, f e.2)) = (ofPairs pairs).map fun e => (e.1, f e.2) := by
  induction pairs using List.reverseRecOn with
  | nil => rfl
  | append_singleton pairs e ih =>
    rw [List.map_append, List.map_singleton, ofPairs_concat, ih, ofPairs_concat]
    exact put_map f e.1 e.2 (ofPairs pairs)

/-- When each key keeps the first value that it is given, that value is the one that is found. -/
theorem get?_foldl_first (pairs : List (κ × ν)) (t : Table κ ν) (key : κ) :
    (pairs.foldl (fun t (k, v) => if t.has k then t else t.put k v) t).get? key =
      (t.get? key).or ((pairs.find? fun e => e.1 = key).map Prod.snd) := by
  induction pairs generalizing t with
  | nil => simp
  | cons e pairs ih =>
    obtain ⟨k, v⟩ := e
    rw [List.foldl_cons, ih]
    by_cases hk : k = key
    · subst hk
      cases hget : t.get? k with
      | none => simp [has, hget]
      | some u => simp [has, hget]
    · by_cases hhas : t.has k <;> simp [hhas, hk]

end WikiTidy.Table
