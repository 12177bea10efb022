import WikiTidy.Proofs.Settings.Parts

/-!
# Patterns on the command line

The option with the patterns to exclude has a long and a short name, and may be given several times.

**Theorem (`exclude_hears_first_name`).** The patterns that are heard are those under the name that
was given first, in order. So all are heard if they are given under one name, and only then
(`mixedNames_lose_pattern`). The words stay operands, in order and as they are.
-/

namespace WikiTidy.Settings

open Text

variable {parts : List Part} {pairs : List (Text × Text)}

/-- The patterns under the name that comes first. -/
def heard : List (Text × Text) → List Text
  | [] => []
  | first :: pairs => first.2 :: (pairs.filter fun e => e.1 = first.1).map Prod.snd

theorem heard_eq_iff :
    heard pairs = pairs.map Prod.snd ↔ ∀ e ∈ pairs, ∀ e' ∈ pairs, e.1 = e'.1 := by
  cases pairs with
  | nil => simp [heard]
  | cons first pairs =>
    have hsame : (∀ e ∈ first :: pairs, ∀ e' ∈ first :: pairs, e.1 = e'.1) ↔
        ∀ e ∈ pairs, e.1 = first.1 := by
      constructor
      · exact fun h e he => h e (List.mem_cons_of_mem _ he) first List.mem_cons_self
      · intro h e he e' he'
        have hfirst : ∀ e ∈ first :: pairs, e.1 = first.1 := List.forall_mem_cons.2 ⟨rfl, h⟩
        rw [hfirst e he, hfirst e' he']
    rw [hsame, heard, List.map_cons, List.cons.injEq, and_iff_right rfl]
    constructor
    · intro h
      have hlength := congrArg List.length h
      rw [List.length_map, List.length_map, List.length_filter_eq_length_iff] at hlength
      exact fun e he => by simpa using hlength e he
    · intro h
      rw [List.filter_eq_self.2 fun e he => by simpa using h e he]

theorem patterns_eq {given : Option Word} {texts : List Text}
    (hgiven : (given.map Given.toList).getD [] = texts.map some) (htexts : ∀ p ∈ texts, p ≠ []) :
    Arguments.patterns given = texts := by
  have hwords : (texts.map some).map (fun p => p.getD "false".toList) = texts := by
    rw [List.map_map]
    exact List.map_id texts
  rw [Arguments.patterns, hgiven, hwords]
  exact List.filter_eq_self.2 fun p hp => by simpa using htexts p hp

/-- What was given under several names is heard under the first one. -/
theorem lookup_eq_heard {names : List Text} (h : ∀ e ∈ pairs, e.1 ∈ names) :
    ((Reading.lookup names (collect (pairs.map fun e => (e.1, some e.2)) [])).map
      Given.toList).getD [] = (heard pairs).map some := by
  rw [lookup_collect]
  cases pairs with
  | nil => rfl
  | cons first pairs =>
    have hfirst : first.1 ∈ names := h first List.mem_cons_self
    simp [hfirst, heard, List.filter_map, Function.comp_def]

theorem mem_of_mem_heard {p : Text} (h : p ∈ heard pairs) : ∃ e ∈ pairs, e.2 = p := by
  cases pairs with
  | nil => cases h
  | cons first pairs =>
    rcases List.mem_cons.1 h with rfl | h
    · exact ⟨first, List.mem_cons_self, rfl⟩
    · obtain ⟨e, he, rfl⟩ := List.mem_map.1 h
      exact ⟨e, List.mem_cons_of_mem _ (List.mem_filter.1 he).1, rfl⟩

theorem operands_usages (h : ∀ name, .flag name ∉ parts) :
    (usages parts).flatMap Usage.operands = wordsOf parts := by
  induction parts with
  | nil => rfl
  | cons part parts ih =>
    have hparts : ∀ name, .flag name ∉ parts := fun name hmem =>
      h name (List.mem_cons_of_mem _ hmem)
    cases part with
    | word text => simp [usages, Usage.operands, wordsOf, Part.word?, ih hparts]
    | pattern name text =>
      simp [usages, Usage.operands, wordsOf, Part.word?, List.filterMap_cons, ih hparts]
    | flag name => exact absurd List.mem_cons_self (h name)

/-- **Only the name that is given first is heard.** The patterns are those under this name, in
order, so none is lost exactly if all are given under one name; and without flags the operands are
the words as they stand. -/
theorem exclude_hears_first_name (h : ∀ part ∈ parts, part.IsProper) :
    (Arguments.read (argsOf parts)).exclude = heard (patternsOf parts) ∧
      ((Arguments.read (argsOf parts)).exclude = (patternsOf parts).map Prod.snd ↔
        ∀ e ∈ patternsOf parts, ∀ e' ∈ patternsOf parts, e.1 = e'.1) ∧
      ((∀ name, .flag name ∉ parts) →
        (Arguments.read (argsOf parts)).operands = wordsOf parts) := by
  have hread := Reading.readFrom_argsOf h Reading.start
  have hexclude : (Arguments.read (argsOf parts)).exclude = heard (patternsOf parts) := by
    show Arguments.patterns ((Reading.readFrom false .start (argsOf parts)).word? .exclude) = _
    rw [hread]
    refine patterns_eq (lookup_eq_heard fun e he => (of_mem_patternsOf h he).1) fun p hp => ?_
    obtain ⟨e, he, rfl⟩ := mem_of_mem_heard hp
    exact (of_mem_patternsOf h he).2
  refine ⟨hexclude, hexclude ▸ heard_eq_iff, fun hflags => ?_⟩
  show (Reading.readFrom false .start (argsOf parts)).operands = _
  rw [hread]
  exact operands_usages hflags

/-- Two patterns under one name, with an operand between them. -/
def sameName : List Part :=
  [.pattern ['x'] "*.png".toList, .word "in".toList, .pattern ['x'] "drafts/**".toList]

theorem sameName_keeps_patterns :
    (Arguments.read (argsOf sameName)).exclude = ["*.png".toList, "drafts/**".toList] ∧
      (Arguments.read (argsOf sameName)).operands = ["in".toList] := by
  have hproper : ∀ part ∈ sameName, part.IsProper := by decide +kernel
  obtain ⟨hexclude, -, hoperands⟩ := exclude_hears_first_name hproper
  exact ⟨hexclude, hoperands (by simp [sameName])⟩

/-- The same patterns, the second one under the long name. -/
def mixedNames : List Part :=
  [.pattern ['x'] "*.png".toList, .word "in".toList, .pattern "exclude".toList "drafts/**".toList]

/-- A pattern under the second name is lost. -/
theorem mixedNames_lose_pattern :
    argsOf mixedNames = ["-x", "*.png", "in", "--exclude", "drafts/**"].map String.toList ∧
      (∀ part ∈ mixedNames, part.IsProper) ∧
      (patternsOf mixedNames).map Prod.snd = ["*.png".toList, "drafts/**".toList] ∧
      (Arguments.read (argsOf mixedNames)).exclude = ["*.png".toList] := by
  decide +kernel

end WikiTidy.Settings
