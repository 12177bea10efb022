import WikiTidy.Proofs.Numeral.Characters
import WikiTidy.Proofs.Settings.Parts
import WikiTidy.Settings.Resolve

/-!
# Operands among flags

Flags may stand anywhere among the operands. A word directly behind a flag is read as its value
first and comes back as an operand, but in the form of a number if it can be read as one.

**Theorem (`operands_among_flags`).** The operands are the words in order, each as it was taken
(`taken`). So they stand as they were written exactly if every number directly behind a flag is
written in its canonical form; a word with a slash is no number. If they do, a run has the folders
that it has when the words stand alone, whatever flags there are and wherever they stand.
-/

namespace WikiTidy.Settings

open Text

variable {parts : List Part} {text : Text}

/-! ## Words that are taken for the value of a flag -/

/-- The words of a command line as they are taken: one directly behind a flag in the form of a
number, if it can be read as one. -/
def taken : List Part → List Text
  | [] => []
  | .word text :: parts => text :: taken parts
  | .pattern _ _ :: parts => taken parts
  | .flag _ :: .word text :: parts => Reading.asNumber text :: taken parts
  | .flag _ :: parts => taken parts

/-- The words that stand directly behind a flag. -/
def wordsBehindFlags (parts : List Part) : List Text := (usages parts).filterMap Usage.behindFlag?

theorem wordsBehindFlags_flag (name : Text)
    (h : ∀ text rest, parts = .word text :: rest → False) :
    wordsBehindFlags (.flag name :: parts) = wordsBehindFlags parts := by
  simp [wordsBehindFlags, usages, Usage.behindFlag?, List.filterMap_cons]

/-- A word that says whether a flag is on. -/
def IsSwitch (text : Text) : Prop := text = "true".toList ∨ text = "false".toList

theorem operands_usages_eq_taken (h : ∀ text ∈ wordsOf parts, ¬IsSwitch text) :
    (usages parts).flatMap Usage.operands = taken parts := by
  induction parts using usages.induct with
  | case1 => rfl
  | case2 text parts ih =>
    have hparts : ∀ text ∈ wordsOf parts, ¬IsSwitch text :=
      fun t ht => h t (List.mem_cons_of_mem _ ht)
    simp [usages, taken, Usage.operands, ih hparts]
  | case3 name text parts ih => simpa [usages, taken, Usage.operands] using ih h
  | case4 name text parts ih =>
    obtain ⟨htext, hparts⟩ := List.forall_mem_cons.1 h
    have hreturned : returned (some text) = [Reading.asNumber text] := if_neg htext
    simp [usages, taken, Usage.operands, hreturned, ih hparts]
  | case5 name parts hnext ih => simpa [usages, taken, Usage.operands, returned] using ih h

theorem taken_eq_iff :
    taken parts = wordsOf parts ↔
      ∀ text ∈ wordsBehindFlags parts, Reading.asNumber text = text := by
  induction parts using usages.induct with
  | case1 => simp [taken, wordsOf, wordsBehindFlags, usages]
  | case2 text parts ih =>
    have hwords : wordsOf (.word text :: parts) = text :: wordsOf parts := rfl
    rw [taken, hwords, List.cons.injEq, and_iff_right rfl, ih]
    rfl
  | case3 name text parts ih => exact ih
  | case4 name text parts ih =>
    have hwords : wordsOf (.flag name :: .word text :: parts) = text :: wordsOf parts := rfl
    have hbehind : wordsBehindFlags (.flag name :: .word text :: parts) =
        text :: wordsBehindFlags parts := rfl
    rw [taken, hwords, hbehind, List.cons.injEq, ih, List.forall_mem_cons]
  | case5 name parts hnext ih =>
    have htaken : taken (.flag name :: parts) = taken parts := by simp [taken]
    rw [htaken, wordsBehindFlags_flag name hnext]
    exact ih

/-! ## The folders of a run -/

/-- Where a run reads and where it writes. -/
def folders (a : Arguments) (t : Tree) (folder : Place) : Except Fault (Place × Place) :=
  (resolve a t folder).1.map fun s => (s.input, s.output)

/-- The folders of a run depend on its operands, on where it writes and on its settings file. -/
theorem folders_congr {a b : Arguments} (hoperands : a.operands = b.operands)
    (hinPlace : a.inPlace.isOn = b.inPlace.isOn) (hconfig : a.config = b.config) (t : Tree)
    (folder : Place) : folders a t folder = folders b t folder := by
  have hoperand (i : Nat) : operand? a i = operand? b i := by rw [operand?, operand?, hoperands]
  unfold folders resolve
  rw [hoperand, hoperand, hinPlace, hconfig]
  cases operand? b 0 with
  | none => rfl
  | some input =>
    cases operand? b 1 with
    | none =>
      dsimp only
      split
      · rfl
      · cases fileSettings t folder b.config with
        | error fault => rfl
        | ok found => rfl
    | some output =>
      dsimp only
      split
      · rfl
      · cases fileSettings t folder b.config with
        | error fault => rfl
        | ok found => rfl

theorem isOn_lookup {names : List Text} {pairs : List (Text × Bool)} (h : ∀ e ∈ pairs, e.2 = true) :
    Flag.isOn ((Reading.lookup names (collect pairs [])).getD (.once false)) =
      pairs.any fun e => names.contains e.1 := by
  have hvalues := lookup_collect names pairs
  rw [← List.isSome_find?]
  cases hfind : pairs.find? fun e => names.contains e.1 with
  | none =>
    rw [hfind, Option.map_none, Option.map_eq_none_iff] at hvalues
    rw [hvalues]
    rfl
  | some first =>
    rw [hfind, Option.map_some, Option.map_eq_some_iff] at hvalues
    obtain ⟨values, hlookup, hlist⟩ := hvalues
    rw [hlookup]
    cases values with
    | several bs => rfl
    | once b =>
      have hb : b ∈ (pairs.filter fun e => e.1 = first.1).map Prod.snd := by
        rw [← hlist]
        exact List.mem_singleton_self b
      obtain ⟨e, he, rfl⟩ := List.mem_map.1 hb
      exact h e (List.mem_filter.1 he).1

theorem exists_mem_flags_iff {name : Text} :
    (∃ b, (name, b) ∈ (usages parts).filterMap Usage.flag?) ↔ .flag name ∈ parts := by
  induction parts using usages.induct with
  | case1 => simp [usages]
  | case2 text parts ih => simpa [usages, Usage.flag?] using ih
  | case3 name' text parts ih => simpa [usages, Usage.flag?] using ih
  | case4 name' text parts ih =>
    have hflags : (usages (.flag name' :: .word text :: parts)).filterMap Usage.flag? =
        (name', switchesOn (some text)) :: (usages parts).filterMap Usage.flag? := rfl
    simp only [hflags, List.mem_cons, Prod.mk.injEq, exists_or, exists_and_left, exists_eq, and_true,
      ih, Part.flag.injEq, reduceCtorEq, false_or]
  | case5 name' parts hnext ih =>
    have hflags : (usages (.flag name' :: parts)).filterMap Usage.flag? =
        (name', switchesOn none) :: (usages parts).filterMap Usage.flag? := by
      simp [usages, Usage.flag?]
    simp only [hflags, List.mem_cons, Prod.mk.injEq, exists_or, exists_and_left, exists_eq, and_true,
      ih, Part.flag.injEq]

theorem subset_wordsOf : wordsBehindFlags parts ⊆ wordsOf parts := by
  induction parts using usages.induct with
  | case1 => exact List.nil_subset _
  | case2 text parts ih => exact List.subset_cons_of_subset text ih
  | case3 name text parts ih => exact ih
  | case4 name text parts ih => exact List.cons_subset_cons text ih
  | case5 name parts hnext ih =>
    rw [wordsBehindFlags_flag name hnext]
    exact ih

/-- A flag is switched on unless the word behind it says otherwise or is empty. -/
theorem switchesOn_of_mem (hswitch : ∀ text ∈ wordsOf parts, ¬IsSwitch text)
    (hempty : [] ∉ wordsBehindFlags parts) :
    ∀ e ∈ (usages parts).filterMap Usage.flag?, e.2 = true := by
  intro e he
  obtain ⟨usage, husage, hflag⟩ := List.mem_filterMap.1 he
  match usage, hflag with
  | .flag name none, rfl => rfl
  | .flag name (some text), rfl =>
    have hbehind : text ∈ wordsBehindFlags parts := List.mem_filterMap.2 ⟨_, husage, rfl⟩
    have hoff : text ≠ "false".toList := fun h => hswitch text (subset_wordsOf hbehind) (Or.inr h)
    have hne : text ≠ [] := fun h => hempty (h ▸ hbehind)
    simpa [switchesOn, hne] using hoff

theorem lookup_patterns_eq_none (h : ∀ part ∈ parts, part.IsProper) :
    Reading.lookup WordOption.config.names
      (collect ((patternsOf parts).map fun e => (e.1, some e.2)) []) = none := by
  have hvalues := lookup_collect WordOption.config.names
    ((patternsOf parts).map fun e => (e.1, some e.2))
  have hnone : ((patternsOf parts).map fun e => (e.1, some e.2)).find?
      (fun e => WordOption.config.names.contains e.1) = none := by
    refine List.find?_eq_none.2 fun e he => ?_
    obtain ⟨⟨name, text⟩, hmem, rfl⟩ := List.mem_map.1 he
    have hapart : ∀ name ∈ WordOption.exclude.names,
        ¬WordOption.config.names.contains name = true := by
      decide +kernel
    exact hapart name (of_mem_patternsOf h hmem).1
  rwa [hnone, Option.map_none, Option.map_eq_none_iff] at hvalues

/-! ## Operands and folders -/

/-- **Operands among flags** are the words in order, as they were taken. They stand as they were
written exactly if every number directly behind a flag is in its canonical form, so always if none of
these words can be a number; and then the folders are those of the words alone. -/
theorem operands_among_flags (h : ∀ part ∈ parts, part.IsProper)
    (hswitch : ∀ text ∈ wordsOf parts, ¬IsSwitch text) :
    (Arguments.read (argsOf parts)).operands = taken parts ∧
      ((Arguments.read (argsOf parts)).operands = wordsOf parts ↔
        ∀ text ∈ wordsBehindFlags parts, Reading.asNumber text = text) ∧
      ((∀ text ∈ wordsBehindFlags parts,
          ∃ c ∈ text, isBlank c = false ∧ Numeral.isNumberChar c = false) →
        (Arguments.read (argsOf parts)).operands = wordsOf parts) ∧
      ((Arguments.read (argsOf parts)).operands = wordsOf parts → ∀ t folder,
        folders (Arguments.read (argsOf parts)) t folder =
          folders
            { Arguments.none with
              operands := wordsOf parts
              inPlace := .once (decide (.flag "in-place".toList ∈ parts)) } t folder) := by
  have hread := Reading.readFrom_argsOf h Reading.start
  have hoperands : (Arguments.read (argsOf parts)).operands = taken parts := by
    show (Reading.readFrom false .start (argsOf parts)).operands = _
    rw [hread]
    exact operands_usages_eq_taken hswitch
  rw [hoperands]
  refine ⟨rfl, taken_eq_iff, fun hwords => taken_eq_iff.2 fun text htext => ?_,
    fun hkept t folder => ?_⟩
  · obtain ⟨c, hc, hblank, hnumber⟩ := hwords text htext
    rw [Reading.asNumber, Numeral.canonical?_eq_none hc hblank hnumber]
    rfl
  · have hempty : [] ∉ wordsBehindFlags parts := fun hmem =>
      absurd (taken_eq_iff.1 hkept [] hmem) (by decide +kernel)
    refine folders_congr (hoperands.trans hkept) ?_ ?_ t folder
    · show Flag.isOn ((Reading.readFrom false .start (argsOf parts)).flag .inPlace) = _
      rw [hread]
      refine (isOn_lookup (switchesOn_of_mem hswitch hempty)).trans ?_
      show _ = decide (.flag "in-place".toList ∈ parts)
      rw [Bool.eq_iff_iff, List.any_eq_true, decide_eq_true_iff, ← exists_mem_flags_iff]
      constructor
      · rintro ⟨⟨name, on⟩, he, hname⟩
        obtain rfl : name = "in-place".toList := by simpa [FlagOption.names] using hname
        exact ⟨on, he⟩
      · rintro ⟨on, he⟩
        exact ⟨_, he, by simp [FlagOption.names]⟩
    · show (Reading.readFrom false .start (argsOf parts)).word? .config = none
      rw [hread]
      exact lookup_patterns_eq_none h

/-- A folder directly behind a flag, and flags in front of it and behind it. -/
def scattered : List Part :=
  [.flag ['q'], .word "./export".toList, .flag "dry-run".toList, .word "2024".toList,
    .flag "in-place".toList]

theorem scattered_operands :
    (Arguments.read (argsOf scattered)).operands = ["./export".toList, "2024".toList] ∧
      folders (Arguments.read (argsOf scattered)) Tree.empty ["home".toList] =
        .ok (["home".toList, "export".toList], ["home".toList, "export".toList]) := by
  have hproper : ∀ part ∈ scattered, part.IsProper := by decide +kernel
  have hswitch : ∀ text ∈ wordsOf scattered, ¬IsSwitch text := by
    unfold IsSwitch
    decide +kernel
  obtain ⟨-, hiff, -, hfolders⟩ := operands_among_flags hproper hswitch
  have hkept := hiff.2 (by decide +kernel)
  exact ⟨hkept, (hfolders hkept Tree.empty ["home".toList]).trans (by decide +kernel)⟩

/-- A folder that is named for a release. -/
def release : List Part := [.flag "dry-run".toList, .word "1.10".toList, .word "out".toList]

/-- The name of a folder loses a zero behind a flag, and keeps it when the flag stands elsewhere. -/
theorem release_operand_changes :
    argsOf release = ["--dry-run", "1.10", "out"].map String.toList ∧
      (∀ part ∈ release, part.IsProper) ∧
      wordsOf release = ["1.10".toList, "out".toList] ∧
      (Arguments.read (argsOf release)).operands = ["1.1".toList, "out".toList] ∧
      (Arguments.read (argsOf (release.rotate 1))).operands = wordsOf release := by
  decide +kernel

end WikiTidy.Settings
