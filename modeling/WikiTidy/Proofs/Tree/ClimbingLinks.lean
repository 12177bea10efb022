import WikiTidy.Proofs.Path.Reduce
import WikiTidy.Proofs.Tree.Listing
import WikiTidy.Proofs.Tree.RealPath

/-!
# Real paths and where links lead

**Theorem (`realPath_eq_of_realPlace`).** If every `..` in the target of a link stands before all
other names of it, then a real path is the place where the links lead.

Such a `..` goes up from the folder of the link, and that is a real one: there it is the same to go
up in the tree and to take a name back. The rest of a target is gone through name by name
(`replaceLinks_of_walk`). At a link a way goes on along its target and the names behind it together;
it leads somewhere at each of its names (`follow_append`), so the target alone leads somewhere, and
it can be replaced by its own real path before the other names are looked at.

A `..` behind the name of a link is what sets the two apart.
-/

namespace WikiTidy

namespace Tree

open Text

variable {t : Tree} {here p q : Place} {names rest : List Text} {target : Text} {e : Entry}
  {n m : Nat} {spot : Spot}

/-! ## Ways through links -/

theorem walk_mono {follow follow' : Place → List Text → Except Cause Spot}
    (h : ∀ here names, follow here names = .ok spot → follow' here names = .ok spot)
    (hwalk : t.walk follow here names = .ok spot) : t.walk follow' here names = .ok spot := by
  induction names generalizing here with
  | nil => exact hwalk
  | cons name names ih =>
    rw [walk] at hwalk ⊢
    split at hwalk
    · next hskip => rw [if_pos hskip]; exact ih hwalk
    · next hskip =>
      rw [if_neg hskip]
      split at hwalk
      · next habove => rw [if_pos habove]; exact ih hwalk
      · next habove =>
        rw [if_neg habove]
        cases hget : t.get? (here ++ [name]) with
        | none => simpa only [hget] using hwalk
        | some e =>
          simp only [hget] at hwalk ⊢
          cases e with
          | folder => exact ih hwalk
          | file content => exact hwalk
          | link target => exact h _ _ hwalk

theorem follow_mono (hnm : n ≤ m) (h : t.follow n here names = .ok spot) :
    t.follow m here names = .ok spot := by
  have hsucc : ∀ n here names, t.follow n here names = .ok spot →
      t.follow (n + 1) here names = .ok spot := by
    intro n
    induction n with
    | zero =>
      intro here names h
      cases h
    | succ n ih => exact fun here names h => walk_mono ih h
  induction m, hnm using Nat.le_induction with
  | base => exact h
  | succ m _ ih => exact hsucc m here names ih

/-- **A way that leads somewhere leads somewhere at each of its names**, and on from there. -/
theorem follow_append (h : t.follow n here (names ++ rest) = .ok (.present q)) :
    ∃ r, t.follow n here names = .ok (.present r) ∧ t.follow n r rest = .ok (.present q) := by
  induction n generalizing here names rest with
  | zero => cases h
  | succ n ih =>
    replace h : t.walk (t.follow n) here (names ++ rest) = .ok (.present q) := h
    show ∃ r, t.walk (t.follow n) here names = .ok (.present r) ∧
      t.walk (t.follow n) r rest = .ok (.present q)
    induction names generalizing here with
    | nil => exact ⟨here, rfl, h⟩
    | cons name names ihNames =>
      rw [List.cons_append, walk] at h
      rw [walk]
      split at h
      · next hskip => rw [if_pos hskip]; exact ihNames h
      · next hskip =>
        rw [if_neg hskip]
        split at h
        · next habove => rw [if_pos habove]; exact ihNames h
        · next habove =>
          rw [if_neg habove]
          cases hget : t.get? (here ++ [name]) with
          | none =>
            simp only [hget] at h
            split at h <;> cases h
          | some e =>
            simp only [hget] at h ⊢
            cases e with
            | folder => exact ihNames h
            | file content =>
              dsimp only at h ⊢
              split at h
              · next hnil =>
                obtain ⟨rfl, rfl⟩ := List.append_eq_nil_iff.1 hnil
                exact ⟨here ++ [name], rfl, h⟩
              · cases h
            | link target =>
              dsimp only at h ⊢
              rw [← List.append_assoc] at h
              obtain ⟨r, hr, hrest⟩ := ih h
              exact ⟨r, hr, follow_mono (Nat.le_succ n) hrest⟩

/-- Names that lead through folders lead to the last of them. -/
theorem IsSound.walk_folder (ht : t.IsSound) {follow : Place → List Text → Except Cause Spot}
    (hnames : Place.IsClean names) (h : t.get? (here ++ names) = some .folder) (rest : List Text) :
    t.walk follow here (names ++ rest) = t.walk follow (here ++ names) rest := by
  induction names generalizing here with
  | nil => rw [List.nil_append, List.append_nil]
  | cons name names ih =>
    obtain ⟨hname, hnames⟩ := List.forall_mem_cons.1 hnames
    rw [List.append_cons] at h ⊢
    rw [List.cons_append, walk_cons t follow here hname, ht.folder_of_append h]
    exact ih hnames h

theorem IsSound.isClean_of_get? (ht : t.IsSound) (h : t.get? p = some e) : p.IsClean := by
  by_cases hp : p = []
  · simp [hp, Place.IsClean]
  · exact ht.clean p (mem_keys_of_get? hp h)

theorem IsSound.realPlace_of_link (ht : t.IsSound) {name : Text} (hn : n ≤ linkLimit)
    (hget : t.get? (here ++ [name]) = some (.link target))
    (h : t.follow n (if Path.isRooted target then [] else here) (split '/' target) =
      .ok (.present p)) : t.realPlace (here ++ [name]) = .ok p := by
  have hfolder : t.get? ([] ++ here) = some .folder := ht.get?_above (List.cons_ne_nil _ _) hget
  have hclean := Place.isClean_append.1 (ht.isClean_of_get? hget)
  have hlocate : t.locate (here ++ [name]) = .ok (.present p) := by
    show t.walk (t.follow linkLimit) [] (here ++ [name]) = _
    rw [ht.walk_folder hclean.1 hfolder, List.nil_append,
      walk_cons t _ here (hclean.2 name (by simp)), hget]
    dsimp only
    rw [List.append_nil]
    exact follow_mono hn h
  rw [realPlace, hlocate]

end Tree

/-! ## Targets that climb first -/

/-- Every `..` stands before all other names. -/
def Path.ClimbsFirst (names : List Text) : Prop :=
  Path.above ∉ names.dropWhile fun name => Path.isIdle name || name = Path.above

instance (names : List Text) : Decidable (Path.ClimbsFirst names) :=
  inferInstanceAs (Decidable (_ ∉ _))

/-- If the entry is a link, every `..` in its target stands before all other names. -/
def Entry.ClimbsFirst : Entry → Prop
  | link target => Path.ClimbsFirst (Text.split '/' target)
  | _ => True

instance : DecidablePred Entry.ClimbsFirst
  | .link target => inferInstanceAs (Decidable (Path.ClimbsFirst (Text.split '/' target)))
  | .folder => isTrue trivial
  | .file _ => isTrue trivial

/-- In every link of the tree each `..` stands before all other names. -/
def Tree.ClimbsFirst (t : Tree) : Prop := ∀ e ∈ t.entries, e.2.ClimbsFirst

instance (t : Tree) : Decidable t.ClimbsFirst := inferInstanceAs (Decidable (∀ e ∈ _, _))

theorem Path.ClimbsFirst.of_idle {name : Text} {names : List Text}
    (hname : Path.isIdle name = true) (h : Path.ClimbsFirst (name :: names)) :
    Path.ClimbsFirst names := by
  simpa [Path.ClimbsFirst, hname] using h

theorem Path.ClimbsFirst.of_above {names : List Text}
    (h : Path.ClimbsFirst (Path.above :: names)) : Path.ClimbsFirst names := by
  simpa [Path.ClimbsFirst] using h

theorem Path.ClimbsFirst.notMem {name : Text} {names : List Text}
    (hidle : Path.isIdle name = false) (habove : name ≠ Path.above)
    (h : Path.ClimbsFirst (name :: names)) : Path.above ∉ name :: names := by
  simpa [Path.ClimbsFirst, hidle, habove] using h

theorem Path.ClimbsFirst.of_notMem {names : List Text} (h : Path.above ∉ names) :
    Path.ClimbsFirst names := fun hmem => h ((List.dropWhile_suffix _).subset hmem)

namespace Tree

open Text

variable {t : Tree} {here p q : Place} {names : List Text} {target : Text} {n : Nat}
  {jump : Place → Option (Except Failure Place)}

theorem ClimbsFirst.of_get? (hlinks : t.ClimbsFirst) (h : t.get? p = some (.link target)) :
    Path.ClimbsFirst (split '/' target) := by
  have hp : p ≠ [] := by
    rintro rfl
    cases h
  rw [get?_of_ne_nil t hp] at h
  exact hlinks _ (Table.mem_of_get? h)

/-- A target is followed from a folder. -/
theorem get?_start (hhere : t.get? here = some .folder) (target : Text) :
    t.get? (if Path.isRooted target then [] else here) = some .folder := by
  split
  · rfl
  · exact hhere

theorem resolve_eq (here : Place) (target : Text) : Place.resolve here target =
    Path.reduce true ((if Path.isRooted target then [] else here) ++ split '/' target) := by
  rw [Place.resolve]
  split <;> rfl

/-- Without `..` a way and a path go through the same links. -/
theorem IsSound.replaceLinks_of_walk (ht : t.IsSound) (hn : n ≤ linkLimit)
    (hjump : ∀ here p target r, t.get? here = some .folder → t.get? p = some (.link target) →
      t.follow n (if Path.isRooted target then [] else here) (split '/' target) =
        .ok (.present r) → jump (Place.resolve here target) = some (.ok r))
    (hhere : t.HasReal here) (hslash : ∀ name ∈ names, '/' ∉ name) (habove : Path.above ∉ names)
    (h : t.walk (t.follow n) here names = .ok (.present q)) :
    t.replaceLinks jump here (names.filter fun name => !Path.isIdle name) = some (.ok q) := by
  induction names generalizing here with
  | nil =>
    obtain rfl : here = q := by simpa [walk] using h
    rfl
  | cons name names ih =>
    obtain ⟨hname, hslash⟩ := List.forall_mem_cons.1 hslash
    rw [List.mem_cons, not_or] at habove
    cases hidle : Path.isIdle name with
    | true =>
      have hskip : name = [] ∨ name = Path.here := by simpa [Path.isIdle] using hidle
      rw [walk, if_pos hskip] at h
      rw [List.filter_cons_of_neg (by simp [hidle])]
      exact ih hhere hslash habove.2 h
    | false =>
      have hskip : name ≠ [] ∧ name ≠ Path.here := by simpa [Path.isIdle] using hidle
      rw [walk_cons t _ here ⟨hskip.1, hskip.2, Ne.symm habove.1, hname⟩] at h
      rw [List.filter_cons_of_pos (by simp [hidle]), replaceLinks]
      cases hget : t.get? (here ++ [name]) with
      | none =>
        simp only [hget] at h
        split at h <;> cases h
      | some e =>
        simp only [hget] at h
        cases e with
        | folder => exact ih (Or.inl hget) hslash habove.2 h
        | file content =>
          dsimp only at h
          split at h
          · next hnil =>
            obtain rfl : here ++ [name] = q := by simpa using h
            rw [hnil]
            rfl
          · cases h
        | link target =>
          dsimp only at h ⊢
          obtain ⟨r, hr, hrest⟩ := follow_append h
          have hfolder : t.get? here = some .folder :=
            ht.get?_above (List.cons_ne_nil _ _) hget
          have hreal : t.HasReal r := ht.hasReal_of_follow (get?_start hfolder target) hr
          rw [ht.realPlace_of_link hn hget hr, hjump _ _ _ r hfolder hget hr]
          exact ih hreal hslash habove.2 (follow_mono (Nat.le_succ n) hrest)

/-- **A way to something is a path to it** if every `..` climbs from a real folder. -/
theorem IsSound.realPathWithin_of_follow (ht : t.IsSound) (hlinks : t.ClimbsFirst)
    (hn : n ≤ linkLimit + 1) (hhere : t.get? here = some .folder)
    (hslash : ∀ name ∈ names, '/' ∉ name) (hclimb : Path.ClimbsFirst names)
    (h : t.follow n here names = .ok (.present q)) :
    t.realPathWithin n (Path.reduce true (here ++ names)) = some (.ok q) := by
  induction n generalizing here names q with
  | zero => cases h
  | succ n ih =>
    have hjump : ∀ here p target r, t.get? here = some .folder → t.get? p = some (.link target) →
        t.follow n (if Path.isRooted target then [] else here) (split '/' target) =
          .ok (.present r) → t.realPathWithin n (Place.resolve here target) = some (.ok r) := by
      intro here p target r hfolder hget hr
      rw [resolve_eq]
      exact ih (Nat.le_of_succ_le hn) (get?_start hfolder target)
        (fun name hname => notMem_of_mem_split hname) (hlinks.of_get? hget) hr
    replace h : t.walk (t.follow n) here names = .ok (.present q) := h
    show t.replaceLinks (t.realPathWithin n) [] _ = _
    induction names generalizing here with
    | nil =>
      obtain rfl : here = q := by simpa [walk] using h
      rw [List.append_nil, Path.reduce_eq_self (ht.isClean_of_get? hhere)]
      have hthere : t.replaceLinks (t.realPathWithin n) [] (here ++ []) = some (.ok here) :=
        ht.replaceLinks_root hhere []
      rwa [List.append_nil] at hthere
    | cons name names ihNames =>
      have hclean := ht.isClean_of_get? hhere
      have hrest := (List.forall_mem_cons.1 hslash).2
      cases hidle : Path.isIdle name with
      | true =>
        have hskip : name = [] ∨ name = Path.here := by simpa [Path.isIdle] using hidle
        rw [walk, if_pos hskip] at h
        rw [Path.reduce_idle hclean hidle]
        exact ihNames hhere hrest (hclimb.of_idle hidle) h
      | false =>
        have hskip : ¬(name = [] ∨ name = Path.here) := by simpa [Path.isIdle] using hidle
        by_cases hname : name = Path.above
        · subst hname
          rw [walk, if_neg hskip, if_pos rfl] at h
          rw [Path.reduce_above hclean]
          exact ihNames (ht.get?_dropLast hhere) hrest hclimb.of_above h
        · have habove := hclimb.notMem hidle hname
          rw [Path.reduce_of_notMem_above hclean hslash habove, ht.replaceLinks_root hhere]
          exact ht.replaceLinks_of_walk (Nat.le_of_succ_le_succ hn) hjump (Or.inl hhere) hslash
            habove h

/-- **A real path is the place where the links lead** if every target climbs first. -/
theorem IsSound.realPath_eq_of_realPlace (ht : t.IsSound) (hlinks : t.ClimbsFirst)
    (hp : p.IsClean) (h : t.realPlace p = .ok q) : t.realPath p = some (.ok q) := by
  have hlocate : t.follow (linkLimit + 1) [] p = .ok (.present q) := by
    unfold realPlace at h
    split at h
    · cases h
    · next r hlocate =>
      obtain rfl : r = q := by simpa using h
      exact hlocate
    · cases h
  have hroot : t.get? [] = some .folder := rfl
  have hclimb : Path.ClimbsFirst p := .of_notMem fun hmem => (hp _ hmem).ne_above rfl
  have hwithin := ht.realPathWithin_of_follow hlinks le_rfl hroot
    (fun name hname => (hp name hname).slash) hclimb hlocate
  rw [List.nil_append, Path.reduce_eq_self hp] at hwithin
  exact realPath_of_within hwithin

/-- **The real path of a link is where it leads** if every target climbs first, and it ends. -/
theorem IsSound.realPath_link (ht : t.IsSound) (hlinks : t.ClimbsFirst)
    (hget : t.get? p = some (.link target)) :
    t.realPath p = some ((t.realPlace p).mapError fun cause => ⟨cause, .status p⟩) := by
  cases hreal : t.realPlace p with
  | ok q =>
    rw [ht.realPath_eq_of_realPlace hlinks (ht.isClean_of_get? hget) hreal]
    rfl
  | error cause =>
    have hp : p ≠ [] := by
      rintro rfl
      cases hget
    obtain ⟨here, name, rfl⟩ := (List.eq_nil_or_concat' p).resolve_left hp
    have hfolder : t.get? ([] ++ here) = some .folder := ht.get?_above (List.cons_ne_nil _ _) hget
    rw [realPath, realPathWithin, ht.replaceLinks_folder hfolder, List.nil_append, replaceLinks]
    simp only [hget, hreal]
    rfl

end Tree

end WikiTidy
