import WikiTidy.Proofs.Site.FilePath
import WikiTidy.Proofs.Text.Order
import WikiTidy.Proofs.Tree.ClimbingLinks

/-!
# The files that are found, exactly

**Theorem (`discover_exact`).** In every tree that a file system can hold, the files of a site are
found: exactly those that folders lead to and whose name does not start with a period, and the links
whose real path is that of a file within the folder, without those that a pattern accepts, each once
and in order. A link that is broken, leads outside or leads to a folder is no file of the site and
gets one notice; there are no other notices. The search never ends exactly if it comes to a link
whose real path never ends.

Real paths are worked out on texts. Where every target climbs first they are the places that the
links lead to (`Tree.IsSound.realPath_link`), and then the search ends and finds what links lead to.
In other trees a link to a file of the site can be passed over as broken (`crossing_drops_page`).

What folders lead to is the listing of the folder (`reaches_iff`); what becomes of one entry of it
shows in where its real path leads (`fileOf_fst_eq_some_iff`, `fileOf_snd`), and within a folder is
what is below it (`isWithin_iff`). Different entries have different paths, so no file is found twice
(`nodup_found`).
-/

namespace WikiTidy

/-- The link that the notice is about. -/
def Notice.link? : Notice → Option Place
  | linkBroken link _ | linkOutside link _ | linkedFolder link _ => some link
  | _ => none

namespace Site

open Text

variable {t : Tree} {folder real place : Place} {names : List Text} {exclude : List Text}
  {accepts : Text → Text → Bool} {path : Text} {e : Entry} {out : Option Text × List Notice}

/-- From the folder names lead through folders to an entry. -/
structure Reaches (t : Tree) (real : Place) (names : List Text) (e : Entry) : Prop where
  ne_nil : names ≠ []
  folders : ∀ above, above <+: names → above ≠ names → t.get? (real ++ above) = some .folder
  entry : t.get? (real ++ names) = some e

/-- Where the folder and the links below it lead, if they lead anywhere. -/
structure Leads where
  root : Option Place
  link : List Text → Option Place

/-- The folder and the links below it lead where their real paths lead. -/
def Leads.ofPaths (t : Tree) (folder : Place) : Leads :=
  { root := (t.realPath folder).bind Except.toOption
    link := fun names => (t.realPath (folder ++ names)).bind Except.toOption }

/-- The links below a real folder lead where they lead in the tree. -/
def Leads.ofLinks (t : Tree) (real : Place) : Leads :=
  { root := some real
    link := fun names => (t.realPlace (real ++ names)).toOption }

variable {leads leads' : Leads}

/-- The link leads to a file within the folder. -/
def LeadsToFile (t : Tree) (leads : Leads) (names : List Text) : Prop :=
  ∃ root ∈ leads.root, ∃ place ∈ leads.link names, isWithin root place = true ∧
    ∃ content, t.get? place = some (.file content)

/-- The link is broken, or it leads outside the folder or to a folder. -/
def LeadsAstray (t : Tree) (leads : Leads) (names : List Text) : Prop :=
  leads.root = none ∨ leads.link names = none ∨
    ∃ root ∈ leads.root, ∃ place ∈ leads.link names,
      isWithin root place = false ∨ t.get? place = some .folder

/-- The names lead to a file of the site: its own name does not start with a period, and it is a
file, or a link to a file within the folder. -/
structure IsSiteFile (t : Tree) (real : Place) (leads : Leads) (names : List Text) : Prop where
  shown : ∀ name ∈ names.getLast?, name.head? ≠ some '.'
  found : (∃ content, Reaches t real names (.file content)) ∨
    ∃ target, Reaches t real names (.link target) ∧ LeadsToFile t leads names

/-- The names lead to a link that is passed over. -/
def IsPassedOver (t : Tree) (real : Place) (leads : Leads) (names : List Text) : Prop :=
  ∃ target, Reaches t real names (.link target) ∧ LeadsAstray t leads names

/-- The names lead to a link for which the search never ends. -/
def NeverEnds (t : Tree) (folder real : Place) (names : List Text) : Prop :=
  (∃ target, Reaches t real names (.link target)) ∧
    (t.realPath folder = none ∨
      (∃ root, t.realPath folder = some (.ok root)) ∧ t.realPath (folder ++ names) = none)

/-! ## What folders lead to -/

theorem reaches_iff (ht : t.IsSound) : Reaches t real names e ↔ (names, e) ∈ t.listing real := by
  rw [ht.mem_listing_iff]
  constructor
  · exact fun h => ⟨h.ne_nil, h.entry⟩
  · intro h
    refine ⟨h.1, fun above habove hne => ?_, h.2⟩
    obtain ⟨rest, rfl⟩ := habove
    have hget := h.2
    rw [← List.append_assoc] at hget
    refine ht.get?_above (fun hnil => hne ?_) hget
    rw [hnil, List.append_nil]

theorem Reaches.isClean (ht : t.IsSound) (h : Reaches t real names e) : Place.IsClean names :=
  ht.isClean_below h.ne_nil h.entry

theorem Reaches.unique {e' : Entry} (h : Reaches t real names e) (h' : Reaches t real names e') :
    e = e' := Option.some.inj (h.entry.symm.trans h'.entry)

/-! ## Where a link leads -/

theorem isWithin_iff (hreal : real ≠ []) : isWithin real place = true ↔ real <+: place := by
  rw [isWithin, Bool.or_eq_true, beq_iff_eq, Bool.and_eq_true, List.isPrefixOf_iff_prefix]
  constructor
  · intro h
    rcases h with rfl | h
    · exact List.prefix_rfl
    · exact h.2
  · exact fun h => Or.inr ⟨by simpa using hreal, h⟩

theorem not_leadsToFile (h : LeadsAstray t leads names) : ¬LeadsToFile t leads names := by
  intro hfile
  obtain ⟨root, hroot, place, hplace, hwithin, content, hget⟩ := hfile
  rcases h with hnone | hnone | ⟨root', hroot', place', hplace', haway⟩
  · rw [hnone] at hroot
    cases hroot
  · rw [hnone] at hplace
    cases hplace
  · obtain rfl : root = root' := Option.some.inj (hroot.symm.trans hroot')
    obtain rfl : place = place' := Option.some.inj (hplace.symm.trans hplace')
    rcases haway with hout | hfolder
    · rw [hwithin] at hout
      cases hout
    · rw [hget] at hfolder
      cases hfolder

/-- **A link that leads to a file within the folder counts as a file; any other gets a notice**, if
what is asked about it ends. -/
theorem linkedFile_cases (t : Tree) (folder : Place) (names : List Text) :
    (linkedFile t folder names = none ∧ (t.realPath folder = none ∨
      (∃ root, t.realPath folder = some (.ok root)) ∧ t.realPath (folder ++ names) = none)) ∨
    (LeadsToFile t (.ofPaths t folder) names ∧ linkedFile t folder names =
      some (if endsHidden names then none else some (pathOf names), [])) ∨
    (LeadsAstray t (.ofPaths t folder) names ∧ ∃ n, linkedFile t folder names =
      some (none, [n]) ∧ n.link? = some (folder ++ names)) := by
  unfold linkedFile
  cases hroot : t.realPath folder with
  | none => exact Or.inl ⟨rfl, Or.inl rfl⟩
  | some found =>
    cases found with
    | error failure =>
      exact Or.inr (Or.inr ⟨Or.inl (by simp [Leads.ofPaths, hroot, Except.toOption]), _, rfl, rfl⟩)
    | ok root =>
      have hfolder : root ∈ (Leads.ofPaths t folder).root := by
        simp [Leads.ofPaths, hroot, Except.toOption]
      dsimp only
      cases hlink : t.realPath (folder ++ names) with
      | none => exact Or.inl ⟨rfl, Or.inr ⟨⟨root, rfl⟩, rfl⟩⟩
      | some found =>
        cases found with
        | error failure =>
          refine Or.inr (Or.inr ⟨Or.inr (Or.inl ?_), _, rfl, rfl⟩)
          simp [Leads.ofPaths, hlink, Except.toOption]
        | ok place =>
          have hplace : place ∈ (Leads.ofPaths t folder).link names := by
            simp [Leads.ofPaths, hlink, Except.toOption]
          dsimp only
          cases hwithin : isWithin root place with
          | false =>
            refine Or.inr (Or.inr ⟨Or.inr (Or.inr ?_), _, rfl, rfl⟩)
            exact ⟨root, hfolder, place, hplace, Or.inl hwithin⟩
          | true =>
            rcases Tree.hasReal_of_realPath hlink with hget | ⟨content, hget⟩
            · refine Or.inr (Or.inr ⟨Or.inr (Or.inr ?_), .linkedFolder (folder ++ names)
                (pathOf names), by simp [Tree.isFolder, hget], rfl⟩)
              exact ⟨root, hfolder, place, hplace, Or.inr hget⟩
            · refine Or.inr (Or.inl ⟨⟨root, hfolder, place, hplace, hwithin, content, hget⟩, ?_⟩)
              simp [Tree.isFolder, hget]

/-! ## What becomes of an entry -/

theorem endsHidden_eq_false_iff :
    endsHidden names = false ↔ ∀ name ∈ names.getLast?, name.head? ≠ some '.' := by
  rw [endsHidden]
  cases names.getLast? <;> simp [isHidden]

theorem ite_eq_some_iff {b : Bool} {a c : Text} :
    (if b = true then none else some a) = some c ↔ b = false ∧ a = c := by
  cases b <;> simp

/-- The search ends at every entry but a link that it never gets done with. -/
theorem fileOf_eq_none_iff (hreach : Reaches t real names e) :
    fileOf t folder names e = none ↔ NeverEnds t folder real names := by
  cases e with
  | folder =>
    constructor
    · intro h
      cases h
    · intro h
      obtain ⟨⟨target, hlink⟩, -⟩ := h
      cases hreach.unique hlink
  | file content =>
    constructor
    · intro h
      cases h
    · intro h
      obtain ⟨⟨target, hlink⟩, -⟩ := h
      cases hreach.unique hlink
  | link target =>
    rw [fileOf]
    constructor
    · intro h
      rcases linkedFile_cases t folder names with ⟨-, hends⟩ | ⟨-, heq⟩ | ⟨-, n, heq, -⟩
      · exact ⟨⟨target, hreach⟩, hends⟩
      · rw [h] at heq
        cases heq
      · rw [h] at heq
        cases heq
    · rintro ⟨-, hnone | ⟨⟨root, hroot⟩, hnone⟩⟩
      · rw [linkedFile, hnone]
      · rw [linkedFile, hroot]
        dsimp only
        rw [hnone]

theorem path_of_fileOf (hout : fileOf t folder names e = some out) (h : out.1 = some path) :
    path = pathOf names := by
  cases e with
  | folder =>
    obtain rfl := Option.some.inj hout
    cases h
  | file content =>
    obtain rfl := Option.some.inj hout
    exact (ite_eq_some_iff.1 h).2.symm
  | link target =>
    rw [fileOf] at hout
    rcases linkedFile_cases t folder names with ⟨hnone, -⟩ | ⟨-, heq⟩ | ⟨-, n, heq, -⟩
    · rw [hnone] at hout
      cases hout
    · obtain rfl := Option.some.inj (heq.symm.trans hout)
      exact (ite_eq_some_iff.1 h).2.symm
    · obtain rfl := Option.some.inj (heq.symm.trans hout)
      cases h

/-- An entry is a file of the site if its names say so. -/
theorem fileOf_fst_eq_some_iff (hreach : Reaches t real names e)
    (hout : fileOf t folder names e = some out) :
    out.1 = some path ↔ path = pathOf names ∧ IsSiteFile t real (.ofPaths t folder) names := by
  cases e with
  | folder =>
    obtain rfl := Option.some.inj hout
    constructor
    · intro h
      cases h
    · intro h
      rcases h.2.found with ⟨content, hfile⟩ | ⟨target, hlink, -⟩
      · cases hreach.unique hfile
      · cases hreach.unique hlink
  | file content =>
    obtain rfl := Option.some.inj hout
    rw [ite_eq_some_iff, endsHidden_eq_false_iff]
    constructor
    · exact fun h => ⟨h.2.symm, h.1, Or.inl ⟨content, hreach⟩⟩
    · exact fun h => ⟨h.2.shown, h.1.symm⟩
  | link target =>
    rw [fileOf] at hout
    rcases linkedFile_cases t folder names with ⟨hnone, -⟩ | ⟨hfile, heq⟩ | ⟨hastray, n, heq, -⟩
    · rw [hnone] at hout
      cases hout
    · obtain rfl := Option.some.inj (heq.symm.trans hout)
      rw [ite_eq_some_iff, endsHidden_eq_false_iff]
      constructor
      · exact fun h => ⟨h.2.symm, h.1, Or.inr ⟨target, hreach, hfile⟩⟩
      · exact fun h => ⟨h.2.shown, h.1.symm⟩
    · obtain rfl := Option.some.inj (heq.symm.trans hout)
      constructor
      · intro h
        cases h
      · intro h
        rcases h.2.found with ⟨content, hfile⟩ | ⟨-, -, hfile⟩
        · cases hreach.unique hfile
        · exact absurd hfile (not_leadsToFile hastray)

/-- A link that is passed over gets a notice, and nothing else does. -/
theorem fileOf_snd (hreach : Reaches t real names e) (hout : fileOf t folder names e = some out) :
    (out.2 = [] ∧ ¬IsPassedOver t real (.ofPaths t folder) names) ∨
      ∃ n, out.2 = [n] ∧ n.link? = some (folder ++ names) ∧
        IsPassedOver t real (.ofPaths t folder) names := by
  cases e with
  | folder =>
    obtain rfl := Option.some.inj hout
    refine Or.inl ⟨rfl, fun h => ?_⟩
    obtain ⟨target, hlink, -⟩ := h
    cases hreach.unique hlink
  | file content =>
    obtain rfl := Option.some.inj hout
    refine Or.inl ⟨rfl, fun h => ?_⟩
    obtain ⟨target, hlink, -⟩ := h
    cases hreach.unique hlink
  | link target =>
    rw [fileOf] at hout
    rcases linkedFile_cases t folder names with ⟨hnone, -⟩ | ⟨hfile, heq⟩ | ⟨hastray, n, heq, hn⟩
    · rw [hnone] at hout
      cases hout
    · obtain rfl := Option.some.inj (heq.symm.trans hout)
      refine Or.inl ⟨rfl, fun h => ?_⟩
      obtain ⟨-, -, hastray⟩ := h
      exact not_leadsToFile hastray hfile
    · obtain rfl := Option.some.inj (heq.symm.trans hout)
      exact Or.inr ⟨n, rfl, hn, target, hreach, hastray⟩

/-! ## What becomes of all entries -/

theorem mapM_eq_none_iff {α β : Type} {f : α → Option β} {as : List α} :
    as.mapM f = none ↔ ∃ a ∈ as, f a = none := by
  induction as with
  | nil => simp
  | cons a as ih =>
    rw [List.mapM_cons, List.exists_mem_cons_iff, ← ih]
    cases hfirst : f a with
    | none => simp
    | some b => cases hrest : as.mapM f <;> simp

/-- When all results are there, each element has its own. -/
theorem mapM_eq_some_map {α β : Type} {f : α → Option β} {g : α → β} {as : List α}
    (h : ∀ a ∈ as, f a = some (g a)) : as.mapM f = some (as.map g) := by
  induction as with
  | nil => rfl
  | cons a as ih =>
    obtain ⟨hfirst, hrest⟩ := List.forall_mem_cons.1 h
    rw [List.mapM_cons, hfirst, ih hrest]
    rfl

/-- What becomes of an entry that the search gets done with. -/
def outcomeOf (t : Tree) (folder : Place) (x : List Text × Entry) : Option Text × List Notice :=
  (fileOf t folder x.1 x.2).getD (none, [])

/-- What becomes of the entries below a folder, in order. -/
def outcomes (t : Tree) (folder real : Place) : List (Option Text × List Notice) :=
  (t.listing real).map (outcomeOf t folder)

/-- The search gets done with everything that folders lead to. -/
def GetsDone (t : Tree) (folder real : Place) : Prop := ∀ names, ¬NeverEnds t folder real names

theorem GetsDone.fileOf_eq (hdone : GetsDone t folder real) (hreach : Reaches t real names e) :
    fileOf t folder names e = some (outcomeOf t folder (names, e)) := by
  cases hout : fileOf t folder names e with
  | none => exact absurd ((fileOf_eq_none_iff hreach).1 hout) (hdone names)
  | some out => rw [outcomeOf, hout, Option.getD_some]

theorem IsSiteFile.reaches (h : IsSiteFile t real leads names) : ∃ e, Reaches t real names e := by
  rcases h.found with ⟨content, hfile⟩ | ⟨target, hlink, -⟩
  · exact ⟨_, hfile⟩
  · exact ⟨_, hlink⟩

theorem IsPassedOver.not_isSiteFile (h : IsPassedOver t real leads names) :
    ¬IsSiteFile t real leads names := by
  intro hsite
  obtain ⟨target, hlink, hastray⟩ := h
  rcases hsite.found with ⟨content, hfile⟩ | ⟨-, -, hfile⟩
  · cases hlink.unique hfile
  · exact not_leadsToFile hastray hfile

theorem mem_outcomes (ht : t.IsSound) (hdone : GetsDone t folder real) :
    path ∈ (outcomes t folder real).filterMap Prod.fst ↔
      ∃ names, path = pathOf names ∧ IsSiteFile t real (.ofPaths t folder) names := by
  rw [outcomes, List.filterMap_map, List.mem_filterMap]
  constructor
  · intro h
    obtain ⟨⟨names, e⟩, hmem, hfile⟩ := h
    have hreach := (reaches_iff ht).2 hmem
    exact ⟨names, (fileOf_fst_eq_some_iff hreach (hdone.fileOf_eq hreach)).1 hfile⟩
  · intro h
    obtain ⟨names, hpath, hsite⟩ := h
    obtain ⟨e, hreach⟩ := hsite.reaches
    exact ⟨(names, e), (reaches_iff ht).1 hreach,
      (fileOf_fst_eq_some_iff hreach (hdone.fileOf_eq hreach)).2 ⟨hpath, hsite⟩⟩

/-- **No file is found twice.** -/
theorem nodup_found (ht : t.IsSound) (hdone : GetsDone t folder real) :
    ((outcomes t folder real).filterMap Prod.fst).Nodup := by
  rw [outcomes, List.filterMap_map, List.Nodup, List.pairwise_filterMap]
  refine (List.pairwise_map.1 (ht.nodup_listing real)).imp_of_mem fun {x y} hx hy hne => ?_
  intro path hpath path' hpath' heq
  have hreach : Reaches t real x.1 x.2 := (reaches_iff ht).2 hx
  have hreach' : Reaches t real y.1 y.2 := (reaches_iff ht).2 hy
  refine hne (pathOf_inj hreach.ne_nil hreach'.ne_nil (hreach.isClean ht) (hreach'.isClean ht) ?_)
  rw [← path_of_fileOf (hdone.fileOf_eq hreach) hpath,
    ← path_of_fileOf (hdone.fileOf_eq hreach') hpath', heq]

theorem map_flatMap_eq {α β γ : Type} {f : α → List β} {g : β → γ} {k : α → γ} {as : List α}
    (h : ∀ a ∈ as, f a = [] ∨ ∃ b, f a = [b] ∧ g b = k a) :
    (as.flatMap f).map g = (as.filter fun a => !(f a).isEmpty).map k := by
  induction as with
  | nil => rfl
  | cons a as ih =>
    rw [List.forall_mem_cons] at h
    rw [List.flatMap_cons, List.map_append, ih h.2]
    rcases h.1 with hnil | ⟨b, hone, hb⟩
    · simp [hnil]
    · simp [hone, hb]

/-- **Each link that is passed over gets one notice**, and there are no others. -/
theorem exists_links (ht : t.IsSound) (hdone : GetsDone t folder real) :
    ∃ links : List (List Text), links.Nodup ∧
      (∀ names, names ∈ links ↔ IsPassedOver t real (.ofPaths t folder) names) ∧
      ((outcomes t folder real).flatMap Prod.snd).map Notice.link? =
        links.map fun names => some (folder ++ names) := by
  refine ⟨((t.listing real).filter fun x => !(outcomeOf t folder x).2.isEmpty).map Prod.fst,
    (ht.nodup_listing real).sublist (List.filter_sublist.map _), fun names => ?_, ?_⟩
  · rw [List.mem_map]
    constructor
    · intro h
      obtain ⟨⟨names, e⟩, hmem, rfl⟩ := h
      obtain ⟨hlisted, hnotice⟩ := List.mem_filter.1 hmem
      have hreach := (reaches_iff ht).2 hlisted
      rcases fileOf_snd hreach (hdone.fileOf_eq hreach) with ⟨hnil, -⟩ | ⟨-, -, -, h⟩
      · simp [hnil] at hnotice
      · exact h
    · intro h
      obtain ⟨target, hreach, -⟩ := id h
      refine ⟨(names, .link target), List.mem_filter.2 ⟨(reaches_iff ht).1 hreach, ?_⟩, rfl⟩
      rcases fileOf_snd hreach (hdone.fileOf_eq hreach) with ⟨-, hnot⟩ | ⟨n, hone, -⟩
      · exact absurd h hnot
      · simp [hone]
  · rw [outcomes, List.flatMap_map, List.map_map]
    refine map_flatMap_eq fun x hx => ?_
    obtain ⟨names, e⟩ := x
    have hreach := (reaches_iff ht).2 hx
    rcases fileOf_snd hreach (hdone.fileOf_eq hreach) with ⟨hnil, -⟩ | ⟨n, hone, hn, -⟩
    · exact Or.inl hnil
    · exact Or.inr ⟨n, hone, hn⟩

/-! ## The whole site -/

/-- What is found are the files of the site that no pattern accepts, in strict order and none twice.
Links that are passed over are not among them, and get one notice each; there are no other
notices. -/
structure Finds (t : Tree) (folder real : Place) (leads : Leads) (accepts : Text → Text → Bool)
    (exclude files : List Text) (notices : List Notice) : Prop where
  sorted : files.Pairwise fun a b => before a b = true
  nodup : files.Nodup
  mem_iff : ∀ path, path ∈ files ↔
    (∃ names, path = pathOf names ∧ IsSiteFile t real leads names) ∧
      ∀ pattern ∈ exclude, accepts pattern path = false
  notMem : ∀ names, IsPassedOver t real leads names → pathOf names ∉ files
  links : ∃ links : List (List Text), links.Nodup ∧
    (∀ names, names ∈ links ↔ IsPassedOver t real leads names) ∧
    notices.map Notice.link? = links.map fun names => some (folder ++ names)

/-- The search never ends exactly if it comes to a link that it never gets done with. -/
theorem discover_eq_none_iff (ht : t.IsSound) (hreal : t.realFolder folder = .ok real) :
    discover accepts t folder exclude = none ↔ ∃ names, NeverEnds t folder real names := by
  have hmapM : ((t.listing real).mapM fun x => fileOf t folder x.1 x.2) = none ↔
      ∃ names, NeverEnds t folder real names := by
    rw [mapM_eq_none_iff]
    constructor
    · intro h
      obtain ⟨⟨names, e⟩, hmem, hnone⟩ := h
      exact ⟨names, (fileOf_eq_none_iff ((reaches_iff ht).2 hmem)).1 hnone⟩
    · intro h
      obtain ⟨names, hends⟩ := h
      obtain ⟨⟨target, hreach⟩, -⟩ := id hends
      exact ⟨_, (reaches_iff ht).1 hreach, (fileOf_eq_none_iff hreach).2 hends⟩
  rw [← hmapM, discover, hreal]
  dsimp only
  split
  · next hnone => exact ⟨fun _ => hnone, fun _ => rfl⟩
  · next found hfound =>
    refine ⟨fun h => ?_, fun h => ?_⟩
    · split at h <;> cases h
    · rw [h] at hfound
      cases hfound

theorem discover_eq (ht : t.IsSound) (hdone : GetsDone t folder real)
    (hreal : t.realFolder folder = .ok real) (hexclude : [] ∉ exclude) :
    discover accepts t folder exclude =
      some (.ok (sortBy before (((outcomes t folder real).filterMap Prod.fst).filter fun path =>
        !exclude.any (accepts · path))), (outcomes t folder real).flatMap Prod.snd) := by
  have hmapM : ((t.listing real).mapM fun x => fileOf t folder x.1 x.2) =
      some (outcomes t folder real) :=
    mapM_eq_some_map fun x hx =>
      have hreach : Reaches t real x.1 x.2 := (reaches_iff ht).2 hx
      hdone.fileOf_eq hreach
  rw [discover, hreal]
  dsimp only
  rw [hmapM]
  dsimp only
  rw [if_neg (by simpa using hexclude)]

/-- What is found if the search gets done with everything. -/
theorem finds_of_getsDone (accepts : Text → Text → Bool) (ht : t.IsSound)
    (hdone : GetsDone t folder real) (hreal : t.realFolder folder = .ok real)
    (hexclude : [] ∉ exclude) :
    ∃ files notices, discover accepts t folder exclude = some (.ok files, notices) ∧
      Finds t folder real (.ofPaths t folder) accepts exclude files notices := by
  have hmem : ∀ path, path ∈ sortBy before (((outcomes t folder real).filterMap Prod.fst).filter
      fun path => !exclude.any (accepts · path)) ↔
      (∃ names, path = pathOf names ∧ IsSiteFile t real (.ofPaths t folder) names) ∧
        ∀ pattern ∈ exclude, accepts pattern path = false := by
    intro path
    rw [mem_sortBy, List.mem_filter, mem_outcomes ht hdone]
    refine and_congr_right fun _ => ?_
    simp
  have hkept := (nodup_found ht hdone).filter fun path => !exclude.any (accepts · path)
  refine ⟨_, _, discover_eq ht hdone hreal hexclude, ?_⟩
  exact {
    sorted := pairwise_sortBy_before hkept
    nodup := (sortBy_perm _ _).nodup_iff.2 hkept
    mem_iff := hmem
    notMem := by
      intro names hpassed hfile
      obtain ⟨⟨names', hpath, hsite⟩, -⟩ := (hmem _).1 hfile
      obtain ⟨target, hreach, -⟩ := id hpassed
      obtain ⟨e, hreach'⟩ := hsite.reaches
      obtain rfl :=
        pathOf_inj hreach.ne_nil hreach'.ne_nil (hreach.isClean ht) (hreach'.isClean ht) hpath
      exact hpassed.not_isSiteFile hsite
    links := exists_links ht hdone }

/-! ## Targets that climb first -/

theorem leadsToFile_congr (hroot : leads.root = leads'.root)
    (hlink : leads.link names = leads'.link names) :
    LeadsToFile t leads names ↔ LeadsToFile t leads' names := by
  rw [LeadsToFile, LeadsToFile, hroot, hlink]

theorem leadsAstray_congr (hroot : leads.root = leads'.root)
    (hlink : leads.link names = leads'.link names) :
    LeadsAstray t leads names ↔ LeadsAstray t leads' names := by
  rw [LeadsAstray, LeadsAstray, hroot, hlink]

/-- What is found depends on where links lead that folders lead to. -/
theorem Finds.congr {files : List Text} {notices : List Notice} (hroot : leads.root = leads'.root)
    (hlink : ∀ names target, Reaches t real names (.link target) →
      leads.link names = leads'.link names)
    (h : Finds t folder real leads accepts exclude files notices) :
    Finds t folder real leads' accepts exclude files notices := by
  have hsite : ∀ names, IsSiteFile t real leads names ↔ IsSiteFile t real leads' names := by
    intro names
    have hfound : (∃ target, Reaches t real names (.link target) ∧ LeadsToFile t leads names) ↔
        ∃ target, Reaches t real names (.link target) ∧ LeadsToFile t leads' names :=
      exists_congr fun target => and_congr_right fun hreach =>
        leadsToFile_congr hroot (hlink names target hreach)
    exact ⟨fun h => ⟨h.shown, h.found.imp_right hfound.1⟩,
      fun h => ⟨h.shown, h.found.imp_right hfound.2⟩⟩
  have hpassed : ∀ names, IsPassedOver t real leads names ↔ IsPassedOver t real leads' names :=
    fun names => exists_congr fun target => and_congr_right fun hreach =>
      leadsAstray_congr hroot (hlink names target hreach)
  obtain ⟨links, hnodup, hlinks, hnotices⟩ := h.links
  exact {
    sorted := h.sorted
    nodup := h.nodup
    mem_iff := fun path => by simp only [h.mem_iff, hsite]
    notMem := fun names hnames => h.notMem names ((hpassed names).2 hnames)
    links := ⟨links, hnodup, fun names => (hlinks names).trans (hpassed names), hnotices⟩ }

theorem realPath_of_realFolder (ht : t.IsSound) (hlinks : t.ClimbsFirst) (hfolder : folder.IsClean)
    (hreal : t.realFolder folder = .ok real) :
    t.realPath folder = some (.ok real) ∧ t.get? real = some .folder := by
  unfold Tree.realFolder at hreal
  split at hreal
  · cases hreal
  · next q hplace =>
    split at hreal
    · next hisFolder =>
      obtain rfl := Except.ok.inj hreal
      exact ⟨ht.realPath_eq_of_realPlace hlinks hfolder hplace,
        by simpa [Tree.isFolder] using hisFolder⟩
    · cases hreal

/-- Below the folder the real path of a link is where it leads. -/
theorem realPath_of_reaches (ht : t.IsSound) (hlinks : t.ClimbsFirst) (hfolder : folder.IsClean)
    (hreal : t.realFolder folder = .ok real) {target : Text}
    (hreach : Reaches t real names (.link target)) :
    t.realPath (folder ++ names) =
      some ((t.realPlace (real ++ names)).mapError fun cause => ⟨cause, .status (real ++ names)⟩) := by
  obtain ⟨hroot, hget⟩ := realPath_of_realFolder ht hlinks hfolder hreal
  rw [ht.realPath_append hroot hget, ht.realPath_link hlinks hreach.entry]

theorem getsDone_of_climbsFirst (ht : t.IsSound) (hlinks : t.ClimbsFirst)
    (hfolder : folder.IsClean) (hreal : t.realFolder folder = .ok real) :
    GetsDone t folder real := by
  intro names hends
  obtain ⟨⟨target, hreach⟩, hroot | ⟨-, hlink⟩⟩ := hends
  · rw [(realPath_of_realFolder ht hlinks hfolder hreal).1] at hroot
    cases hroot
  · rw [realPath_of_reaches ht hlinks hfolder hreal hreach] at hlink
    cases hlink

/-- **Exactly the files of the site are found**, in every tree that a file system can hold, or the
search never ends. It ends, and goes by where links lead, if every target climbs first. -/
theorem discover_exact (accepts : Text → Text → Bool) (ht : t.IsSound) (hfolder : folder.IsClean)
    (hreal : t.realFolder folder = .ok real) (hexclude : [] ∉ exclude) :
    (discover accepts t folder exclude = none ↔ ∃ names, NeverEnds t folder real names) ∧
    (discover accepts t folder exclude ≠ none →
      ∃ files notices, discover accepts t folder exclude = some (.ok files, notices) ∧
        Finds t folder real (.ofPaths t folder) accepts exclude files notices) ∧
    (t.ClimbsFirst →
      ∃ files notices, discover accepts t folder exclude = some (.ok files, notices) ∧
        Finds t folder real (.ofLinks t real) accepts exclude files notices) := by
  refine ⟨discover_eq_none_iff ht hreal, fun hends => ?_, fun hlinks => ?_⟩
  · refine finds_of_getsDone accepts ht (fun names hnever => hends ?_) hreal hexclude
    exact (discover_eq_none_iff ht hreal).2 ⟨names, hnever⟩
  · have hdone := getsDone_of_climbsFirst ht hlinks hfolder hreal
    obtain ⟨files, notices, hdiscover, hfinds⟩ :=
      finds_of_getsDone accepts ht hdone hreal hexclude
    refine ⟨files, notices, hdiscover, hfinds.congr ?_ fun names target hreach => ?_⟩
    · simp [Leads.ofPaths, Leads.ofLinks, (realPath_of_realFolder ht hlinks hfolder hreal).1,
        Except.toOption]
    · simp only [Leads.ofPaths, Leads.ofLinks,
        realPath_of_reaches ht hlinks hfolder hreal hreach]
      cases t.realPlace (real ++ names) <;> rfl

/-- Pages behind a link, with links to a page, to nothing, to themselves, outside, and to a
folder. -/
def shelf : Tree :=
  ⟨[(["shelf".toList], .link "pages".toList),
    (["other.md".toList], .file []),
    (["pages".toList], .folder),
    (["pages".toList, ".draft".toList], .file []),
    (["pages".toList, "a.md".toList], .file []),
    (["pages".toList, "d".toList], .folder),
    (["pages".toList, "d".toList, "c.md".toList], .file []),
    (["pages".toList, "folder".toList], .link "d".toList),
    (["pages".toList, "loop".toList], .link "loop".toList),
    (["pages".toList, "nothing".toList], .link "none".toList),
    (["pages".toList, "outside".toList], .link "../other.md".toList),
    (["pages".toList, "page.md".toList], .link "folder/c.md".toList)]⟩

theorem shelf_discovered :
    shelf.IsSound ∧ shelf.ClimbsFirst ∧
      shelf.realFolder ["shelf".toList] = .ok ["pages".toList] ∧
      ∃ notices, Finds shelf ["shelf".toList] ["pages".toList] (.ofLinks shelf ["pages".toList])
        (· == ·) ["d/c.md".toList] ["a.md".toList, "page.md".toList] notices := by
  have ht : shelf.IsSound := by decide +kernel
  have hlinks : shelf.ClimbsFirst := by decide +kernel
  have hreal : shelf.realFolder ["shelf".toList] = .ok ["pages".toList] := by
    decide +kernel
  have hfiles : (discover (· == ·) shelf ["shelf".toList] ["d/c.md".toList]).map Prod.fst =
      some (.ok ["a.md".toList, "page.md".toList]) := by decide +kernel
  obtain ⟨files, notices, hdiscover, hfinds⟩ :=
    (discover_exact (· == ·) ht (by decide +kernel) hreal
      (show [] ∉ ["d/c.md".toList] by decide +kernel)).2.2 hlinks
  rw [hdiscover] at hfiles
  obtain rfl := Except.ok.inj (Option.some.inj hfiles)
  exact ⟨ht, hlinks, hreal, notices, hfinds⟩

/-- A link to a page in a folder `d`, which climbs out of another link that leads into that
folder. -/
def crossing : Tree :=
  ⟨[(["site".toList], .folder),
    (["site".toList, "d".toList], .folder),
    (["site".toList, "d".toList, "e".toList], .folder),
    (["site".toList, "d".toList, "x.md".toList], .file (Utf8.encode "# X\n".toList)),
    (["site".toList, "dlink".toList], .link "d/e".toList),
    (["site".toList, "page.md".toList], .link "dlink/../x.md".toList)]⟩

/-- **A link to a page of the site can be passed over as broken.** It leads to `d/x.md`; its real
path is looked for at `x.md`. -/
theorem crossing_drops_page :
    crossing.IsSound ∧ crossing.realFolder ["site".toList] = .ok ["site".toList] ∧
      IsSiteFile crossing ["site".toList] (.ofLinks crossing ["site".toList]) ["page.md".toList] ∧
      discover (· == ·) crossing ["site".toList] [] = some (.ok ["d/x.md".toList],
        [.linkedFolder ["site".toList, "dlink".toList] "dlink".toList,
          .linkBroken ["site".toList, "page.md".toList]
            ⟨.missing, .look ["site".toList, "x.md".toList]⟩]) ∧
      ¬∃ files notices, discover (· == ·) crossing ["site".toList] [] =
          some (.ok files, notices) ∧
        Finds crossing ["site".toList] ["site".toList] (.ofLinks crossing ["site".toList])
          (· == ·) [] files notices := by
  have hsite : IsSiteFile crossing ["site".toList] (.ofLinks crossing ["site".toList])
      ["page.md".toList] := by
    refine ⟨by decide +kernel, Or.inr ⟨"dlink/../x.md".toList, ?_, ?_⟩⟩
    · exact (reaches_iff (by decide +kernel)).2 (by decide +kernel)
    · exact ⟨["site".toList], rfl, ["site".toList, "d".toList, "x.md".toList], by decide +kernel,
        by decide +kernel, _, rfl⟩
  have hdiscover : discover (· == ·) crossing ["site".toList] [] = some (.ok ["d/x.md".toList],
      [.linkedFolder ["site".toList, "dlink".toList] "dlink".toList,
        .linkBroken ["site".toList, "page.md".toList]
          ⟨.missing, .look ["site".toList, "x.md".toList]⟩]) := by decide +kernel
  refine ⟨by decide +kernel, by decide +kernel, hsite, hdiscover, ?_⟩
  rintro ⟨files, notices, hfound, hfinds⟩
  have hmem : pathOf ["page.md".toList] ∈ files :=
    (hfinds.mem_iff _).2 ⟨⟨_, rfl, hsite⟩, by simp⟩
  rw [hdiscover] at hfound
  obtain rfl : ["d/x.md".toList] = files :=
    Except.ok.inj (Prod.mk.inj (Option.some.inj hfound)).1
  revert hmem
  decide +kernel

/-- A link that leads to a file of its own name in another folder, while the real path comes back to
the link. -/
def circling : Tree :=
  ⟨[(["site".toList], .folder),
    (["site".toList, "d".toList], .folder),
    (["site".toList, "d".toList, "a.md".toList], .file []),
    (["site".toList, "d".toList, "e".toList], .folder),
    (["site".toList, "dlink".toList], .link "d/e".toList),
    (["site".toList, "a.md".toList], .link "dlink/../a.md".toList)]⟩

example : discover (· == ·) circling ["site".toList] [] = none := by decide +kernel

end Site

end WikiTidy
