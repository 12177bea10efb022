import WikiTidy.Proofs.Table
import WikiTidy.Settings.Arguments

/-!
# Command lines part by part

A command line is made of parts: words, flags, and patterns to exclude, each option under one of its
names (`Part`). It is read part by part, except that a word directly behind a flag is used as the
value of the flag, and goes back to the operands if it is none (`usages`).

**Reading** (`readFrom_argsOf`). The operands are the words in order, as far as they are not used up,
and what was given under each name is collected in order.

**Names** (`lookup_collect`). An option has what was given under the name that came first, and
nothing of what was given under another one.
-/

namespace WikiTidy.Settings

open Text

/-! ## What is collected under a name -/

variable {α : Type} {pairs : List (Text × α)} {names : List Text} {name : Text}

/-- The values that were given under each name. -/
def collect (pairs : List (Text × α)) (t : Table Text (Given α)) : Table Text (Given α) :=
  pairs.foldl (fun t e => t.update e.1 (Given.add e.2)) t

theorem collect_concat (pairs : List (Text × α)) (e : Text × α) (t : Table Text (Given α)) :
    collect (pairs ++ [e]) t = (collect pairs t).update e.1 (Given.add e.2) :=
  List.foldl_concat _ t e pairs

/-- The names stand in the order in which they were first given. -/
theorem keys_collect (pairs : List (Text × α)) :
    (collect pairs []).keys = (Table.ofPairs pairs).keys := by
  induction pairs using List.reverseRecOn with
  | nil => rfl
  | append_singleton pairs e ih =>
    rw [collect_concat, Table.ofPairs_concat, Table.put, Table.keys_update, Table.keys_update, ih]

theorem get?_collect (pairs : List (Text × α)) (name : Text) :
    (((collect pairs []).get? name).map Given.toList).getD [] =
      (pairs.filter fun e => e.1 = name).map Prod.snd := by
  induction pairs using List.reverseRecOn with
  | nil => rfl
  | append_singleton pairs e ih =>
    rw [collect_concat, Table.get?_update, List.filter_append, List.map_append, ← ih]
    by_cases hname : e.1 = name
    · simp [hname, Given.toList_add]
    · simp [hname]

/-- **Of the names of an option the one that was given first counts.** -/
theorem lookup_collect (names : List Text) (pairs : List (Text × α)) :
    (Reading.lookup names (collect pairs [])).map Given.toList =
      (pairs.find? fun e => names.contains e.1).map fun first =>
        (pairs.filter fun e => e.1 = first.1).map Prod.snd := by
  have hkeys : (collect pairs []).keys.find? names.contains =
      (pairs.find? fun e => names.contains e.1).map Prod.fst := by
    rw [keys_collect, Table.find?_keys_ofPairs, List.find?_map]
    rfl
  have hentry := Table.find?_eq_bind names.contains (collect pairs [])
  rw [hkeys] at hentry
  rw [Reading.lookup, hentry]
  cases hfirst : pairs.find? fun e => names.contains e.1 with
  | none => rfl
  | some first =>
    have hvalues := get?_collect pairs first.1
    cases hget : (collect pairs []).get? first.1 with
    | some values =>
      rw [hget] at hvalues
      simpa [hget] using hvalues
    | none =>
      -- The first pair with one of the names is in the table.
      rw [hget] at hvalues
      have hmem : first ∈ pairs.filter fun e => e.1 = first.1 :=
        List.mem_filter.2 ⟨List.mem_of_find?_eq_some hfirst, by simp⟩
      rw [List.map_eq_nil_iff.1 hvalues.symm] at hmem
      cases hmem

/-! ## Parts and how they are used -/

/-- A part of a command line: an operand, a flag, or an option with a pattern to exclude. -/
inductive Part where
  | word (text : Text)
  | flag (name : Text)
  | pattern (name text : Text)
deriving DecidableEq, Repr

/-- An option as it is written: one dash before a name of one letter, two before a longer one. -/
def dashed (name : Text) : Text := if name.length = 1 then '-' :: name else '-' :: '-' :: name

namespace Part

/-- The arguments that make up a part. -/
def args : Part → List Text
  | word text => [text]
  | flag name => [dashed name]
  | pattern name text => [dashed name, text]

/-- The part can be told for what it is: words and patterns do not start with a dash, patterns are
not empty, and options have their names. -/
def IsProper : Part → Prop
  | word text => startsWith ['-'] text = false
  | flag name => name ∈ flagNames
  | pattern name text =>
    name ∈ WordOption.exclude.names ∧ startsWith ['-'] text = false ∧ text ≠ []

instance : DecidablePred IsProper
  | word _ => inferInstanceAs (Decidable (_ = _))
  | flag _ => inferInstanceAs (Decidable (_ ∈ _))
  | pattern _ _ => inferInstanceAs (Decidable (_ ∧ _ ∧ _))

/-- The text of an operand. -/
def word? : Part → Option Text
  | word text => some text
  | _ => none

/-- A pattern with the name of its option. -/
def pattern? : Part → Option (Text × Text)
  | pattern name text => some (name, text)
  | _ => none

end Part

/-- The arguments of a command line. -/
def argsOf (parts : List Part) : List Text := parts.flatMap Part.args

/-- The words of a command line. -/
def wordsOf (parts : List Part) : List Text := parts.filterMap Part.word?

/-- The patterns of a command line, each with the name that it is given under. -/
def patternsOf (parts : List Part) : List (Text × Text) := parts.filterMap Part.pattern?

/-- The patterns of proper parts are not empty and have a name of their option. -/
theorem of_mem_patternsOf {parts : List Part} {e : Text × Text}
    (h : ∀ part ∈ parts, part.IsProper) (he : e ∈ patternsOf parts) :
    e.1 ∈ WordOption.exclude.names ∧ e.2 ≠ [] := by
  obtain ⟨part, hpart, hpattern⟩ := List.mem_filterMap.1 he
  match part, hpattern with
  | .pattern name text, rfl =>
    obtain ⟨hname, -, htext⟩ := h _ hpart
    exact ⟨hname, htext⟩

/-- What is made of one part, or of a flag and the word behind it. -/
inductive Usage where
  | operand (text : Text)
  | flag (name : Text) (value : Option Text)
  | pattern (name text : Text)
deriving DecidableEq, Repr

/-- What goes back to the operands of the word behind a flag: nothing if it says whether the flag is
on, and else the word, written as a number if it can be read as one. -/
def returned : Option Text → List Text
  | none => []
  | some text =>
    if text = "true".toList ∨ text = "false".toList then [] else [Reading.asNumber text]

/-- The flag is switched on by what stands behind it. -/
def switchesOn : Option Text → Bool
  | none => true
  | some text => text ≠ "false".toList && !text.isEmpty

namespace Usage

/-- The operands that come of it. -/
def operands : Usage → List Text
  | operand text => [text]
  | flag _ value => returned value
  | pattern _ _ => []

/-- The flag, and whether it is switched on. -/
def flag? : Usage → Option (Text × Bool)
  | flag name value => some (name, switchesOn value)
  | _ => none

/-- A word that stands directly behind a flag. -/
def behindFlag? : Usage → Option Text
  | flag _ value => value
  | _ => none

end Usage

/-- How the parts of a command line are used. -/
def usages : List Part → List Usage
  | [] => []
  | .word text :: parts => .operand text :: usages parts
  | .pattern name text :: parts => .pattern name text :: usages parts
  | .flag name :: .word text :: parts => .flag name (some text) :: usages parts
  | .flag name :: parts => .flag name none :: usages parts

/-! ## Reading the parts -/

namespace Reading

variable {r : Reading} {text : Text} {args : List Text} {value : Option Text}

theorem ofText_of_word (h : startsWith ['-'] text = false) :
    Argument.ofText text = .operand text := by
  cases text with
  | nil => rfl
  | cons c text =>
    have hc : c ≠ '-' := by
      rintro rfl
      simp [startsWith, after?] at h
    simp [Argument.ofText, hc]

theorem ofText_dashed :
    ∀ name ∈ flagNames ++ wordNames, Argument.ofText (dashed name) = .option [name] [] := by
  decide +kernel

theorem startsWith_dashed (name : Text) : startsWith ['-'] (dashed name) = true := by
  unfold dashed
  split
  · rfl
  · rfl

theorem readFrom_word (h : startsWith ['-'] text = false) (r : Reading) (args : List Text) :
    readFrom false r (text :: args) =
      readFrom false { r with operands := r.operands ++ [text] } args := by
  rw [readFrom, ofText_of_word h]

theorem readFrom_dashed (h : name ∈ flagNames ++ wordNames) (r : Reading) (args : List Text) :
    readFrom false r (dashed name :: args) =
      readFrom (nextValue? args).isSome (r.give name (nextValue? args)) args := by
  rw [readFrom, ofText_dashed name h]
  rfl

theorem give_pattern (h : name ∈ WordOption.exclude.names) (r : Reading) (text : Text) :
    r.give name (some text) =
      { r with words := r.words.update name (Given.add (some text)) } := by
  have hword : name ∈ wordNames := List.mem_flatMap.2 ⟨.exclude, by decide, h⟩
  simp [give, hword]

theorem notMem_wordNames : ∀ name ∈ flagNames, name ∉ wordNames := by
  decide +kernel

theorem give_flag (h : name ∈ flagNames) (r : Reading) (value : Option Text) :
    r.give name value =
      { r with
        operands := r.operands ++ returned value
        flags := r.flags.update name (Given.add (switchesOn value)) } := by
  have hword : name ∉ wordNames := notMem_wordNames name h
  cases value with
  | none => simp [give, hword, h, returned, switchesOn]
  | some text =>
    by_cases hoff : text = "false".toList
    · simp [give, hword, h, hoff, returned, switchesOn]
    · by_cases hon : text = "true".toList
      · simp [give, hword, h, hon, returned, switchesOn]
      · have hreturned : returned (some text) = [asNumber text] := if_neg (not_or.2 ⟨hon, hoff⟩)
        have hswitches : switchesOn (some text) = !text.isEmpty := by
          simp only [switchesOn, ne_eq, hoff, not_false_eq_true, decide_true, Bool.true_and]
        simp only [give, List.contains_eq_mem, hword, h, decide_false, decide_true,
          Bool.false_eq_true, if_false, if_true, if_neg hoff, if_neg hon, hreturned, hswitches]

/-- An option has no value behind it unless a word stands there. -/
theorem nextValue?_argsOf {parts : List Part} (h : ∀ text rest, parts = .word text :: rest → False) :
    nextValue? (argsOf parts) = none := by
  match parts, h with
  | [], _ => rfl
  | .word text :: rest, h => exact (h text rest rfl).elim
  | .flag name :: rest, _ => exact if_pos (startsWith_dashed name)
  | .pattern name text :: rest, _ => exact if_pos (startsWith_dashed name)

/-- **A command line is read part by part.** -/
theorem readFrom_argsOf {parts : List Part} (h : ∀ part ∈ parts, part.IsProper) (r : Reading) :
    readFrom false r (argsOf parts) =
      { operands := r.operands ++ (usages parts).flatMap Usage.operands
        flags := collect ((usages parts).filterMap Usage.flag?) r.flags
        words := collect ((patternsOf parts).map fun e => (e.1, some e.2)) r.words } := by
  induction parts using usages.induct generalizing r with
  | case1 => simp [argsOf, usages, patternsOf, collect, readFrom]
  | case2 text parts ih =>
    obtain ⟨hword, hparts⟩ := List.forall_mem_cons.1 h
    have hargs : argsOf (.word text :: parts) = text :: argsOf parts := rfl
    rw [hargs, readFrom_word hword, ih hparts]
    simp [usages, Usage.operands, Usage.flag?, patternsOf, Part.pattern?, List.filterMap_cons]
  | case3 name text parts ih =>
    obtain ⟨⟨hname, htext, -⟩, hparts⟩ := List.forall_mem_cons.1 h
    have hargs : argsOf (.pattern name text :: parts) = dashed name :: text :: argsOf parts := rfl
    have hmem : name ∈ flagNames ++ wordNames :=
      List.mem_append_right _ (List.mem_flatMap.2 ⟨.exclude, by decide, hname⟩)
    have hvalue : nextValue? (text :: argsOf parts) = some text := by simp [nextValue?, htext]
    rw [hargs, readFrom_dashed hmem, hvalue, Option.isSome_some, readFrom, give_pattern hname,
      ih hparts]
    simp [usages, Usage.operands, Usage.flag?, patternsOf, Part.pattern?, List.filterMap_cons,
      collect]
  | case4 name text parts ih =>
    obtain ⟨hname, hrest⟩ := List.forall_mem_cons.1 h
    obtain ⟨htext, hparts⟩ := List.forall_mem_cons.1 hrest
    have hargs : argsOf (.flag name :: .word text :: parts) =
        dashed name :: text :: argsOf parts := rfl
    have hvalue : nextValue? (text :: argsOf parts) = some text :=
      if_neg (Bool.eq_false_iff.1 htext)
    rw [hargs, readFrom_dashed (List.mem_append_left _ hname), hvalue, Option.isSome_some, readFrom,
      give_flag hname, ih hparts]
    simp [usages, Usage.operands, Usage.flag?, patternsOf, Part.pattern?, List.filterMap_cons,
      collect]
  | case5 name parts hnext ih =>
    obtain ⟨hname, hparts⟩ := List.forall_mem_cons.1 h
    have hargs : argsOf (.flag name :: parts) = dashed name :: argsOf parts := rfl
    rw [hargs, readFrom_dashed (List.mem_append_left _ hname), nextValue?_argsOf hnext,
      Option.isSome_none, give_flag hname, ih hparts]
    simp [usages, Usage.operands, Usage.flag?, patternsOf, Part.pattern?, List.filterMap_cons,
      collect]

end Reading

end WikiTidy.Settings
