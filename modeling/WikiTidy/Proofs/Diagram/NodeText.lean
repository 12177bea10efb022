import WikiTidy.Diagram.Fence
import WikiTidy.Proofs.Diagram.LineKind
import WikiTidy.Proofs.Diagram.Reread
import WikiTidy.Proofs.Table
import WikiTidy.Proofs.Text.Marks
import WikiTidy.Proofs.Text.Replacing

/-!
# Cleaning and reading a diagram

**Theorem (`cleaning_commutes_with_reading`).** Cleaning the texts of the nodes in a line changes
what the line says in one way only: a declaration of a node declares the cleaned text. An edge keeps
its line, and a line that says something else still does. So the graph of the cleaned lines is the
graph of the lines with its texts cleaned, and a diagram keeps its kind.

The text of a node is a token (`nodeText_prints`), and a cleaned text is one again, because a remark
has neither a quote nor a bracket nor a line end. That leaves the characters that a search passes
by: a bracket and a quote that open no text must not open one after a later text was cleaned
(`nodeText_cleanLine_eq_none`). With that, a search of the cleaned line finds the cleaned texts
where the texts were (`scan_cleanLine`).

An edge has no text to clean: its label has the only two quotes on the line, and a bar stands before
the first (`Edge.hits_of_spells`).
-/

namespace WikiTidy.Diagram

open Text

variable {line s r w id text : Text} {lines : List Text} {b : Bool} {u : Unit} {c : Char} {p : Int}
  {e : Edge}

/-! ## Links -/

theorem suffix_of_after? (h : after? w s = some r) : r <:+ s := ⟨w, (after?_eq_some_iff.1 h).symm⟩

theorem suffix_of_run? {q : Char → Bool} {a : Text} (h : run? q s = some (a, r)) : r <:+ s :=
  ⟨a, (run?_eq_some h).1.symm⟩

theorem bracketLink_eq_some (h : bracketLink b s = some (u, r)) : ∃ w, s = '[' :: w ++ r := by
  simp only [bracketLink, Option.bind_eq_bind, Option.bind_eq_some_iff] at h
  obtain ⟨s₁, hopen, ⟨name, s₂⟩, hname, s₃, hmiddle, ⟨address, s₄⟩, haddress, s₅, hclose, he⟩ := h
  obtain rfl : s₅ = r := by simpa using he
  obtain rfl : s = '[' :: s₁ := after?_eq_some_iff.1 hopen
  have hrest : s₅ <:+ s₁ :=
    (suffix_of_after? hclose).trans ((suffix_of_run? haddress).trans
      ((suffix_of_after? hmiddle).trans (suffix_of_run? hname)))
  obtain ⟨w, rfl⟩ := hrest
  exact ⟨w, rfl⟩

theorem bareAddress_eq_some (h : bareAddress b s = some (u, r)) : ∃ w, s = 'h' :: w ++ r := by
  simp only [bareAddress, Option.bind_eq_bind, Option.bind_eq_some_iff] at h
  obtain ⟨s₁, hopen, s₂, hslashes, ⟨address, s₃⟩, haddress, he⟩ := h
  obtain rfl : s₃ = r := by simpa using he
  obtain rfl : s = 'h' :: 't' :: 't' :: 'p' :: s₁ := after?_eq_some_iff.1 hopen
  have hsecure : skipSecure s₁ <:+ s₁ := by
    cases hs : after? ['s'] s₁ with
    | none => simp [skipSecure, hs]
    | some t => simpa [skipSecure, hs] using suffix_of_after? hs
  obtain ⟨w, rfl⟩ :=
    (suffix_of_run? haddress).trans ((suffix_of_after? hslashes).trans hsecure)
  exact ⟨'t' :: 't' :: 'p' :: w, rfl⟩

theorem bracketLink_isLocal : bracketLink.IsLocal where
  anywhere _ _ := rfl
  takes s u r h := by
    obtain ⟨w, rfl⟩ := bracketLink_eq_some h
    exact ⟨_, List.cons_ne_nil _ w, rfl⟩

theorem bracketLink_startsWith : bracketLink.StartsWith '[' := by
  intro s u r h
  obtain ⟨w, rfl⟩ := bracketLink_eq_some h
  rfl

theorem bareAddress_isLocal : bareAddress.IsLocal where
  anywhere _ _ := rfl
  takes s u r h := by
    obtain ⟨w, rfl⟩ := bareAddress_eq_some h
    exact ⟨_, List.cons_ne_nil _ w, rfl⟩

theorem bareAddress_startsWith : bareAddress.StartsWith 'h' := by
  intro s u r h
  obtain ⟨w, rfl⟩ := bareAddress_eq_some h
  rfl

theorem head?_linkRemark : linkRemark.head? = some 'U' := rfl

/-- A remark stays on its line. -/
theorem isLineEnd_of_mem_remark (hc : c ∈ listRemark ∨ c ∈ linkRemark) : isLineEnd c = false := by
  have hall : (listRemark ++ linkRemark).all (fun c => !isLineEnd c) = true := by decide
  simpa using List.all_eq_true.1 hall c (List.mem_append.2 hc)

/-! ## Cleaned texts -/

theorem isNodeText_iff :
    IsNodeText text ↔ (∀ c ∈ text, isLineEnd c = false) ∧ ¬['"', ']'] <:+: text := by
  have hlast : ['"', ']'] <:+: text ++ ['"'] ↔ ['"', ']'] <:+: text := by
    rw [List.infix_concat_iff, List.suffix_concat_iff]
    refine or_iff_right ?_
    rintro (h | ⟨t, ht, -⟩)
    · cases h
    · exact absurd (congrArg List.getLast? ht) (by simp)
  constructor
  · exact fun h => ⟨h.line, hlast.not.1 h.first⟩
  · exact fun h => ⟨h.1, hlast.not.2 h.2⟩

/-- A text stays one when remarks replace parts of it. -/
theorem IsNodeText.replace {q : Pattern Unit} (hq : q.IsLocal) (h : IsNodeText text) :
    IsNodeText (replace q (fun _ => linkRemark) text) := by
  rw [isNodeText_iff] at h ⊢
  obtain ⟨hline, hclosing⟩ := h
  constructor
  · intro c hc
    by_contra hend
    have hremark : c ∉ linkRemark := fun hmem => hend (isLineEnd_of_mem_remark (Or.inr hmem))
    exact hend (hline c (hq.mem_of_mem_replace (fun _ => hremark) hc))
  · intro hinfix
    exact hclosing (hq.infix_of_infix_replace (fun _ => head?_linkRemark) (by decide)
      (fun _ => by decide) hinfix)

theorem IsNodeText.cleanText (h : IsNodeText text) : IsNodeText (cleanText text) := by
  rw [Diagram.cleanText]
  split
  · exact isNodeText_iff.2 ⟨fun c hc => isLineEnd_of_mem_remark (Or.inl hc), by decide⟩
  · exact (h.replace bracketLink_isLocal).replace bareAddress_isLocal

/-! ## Cleaned lines -/

/-- **The text of a node is a token.** -/
theorem nodeText_prints : nodeText.Prints renderText IsNodeText where
  reads b s text r := by simp [nodeText, nodeText?_eq_some_iff, renderText]
  ne_nil text := by simp [renderText]

theorem nodeText_startsWith : nodeText.StartsWith '[' := by
  intro s text r h
  obtain ⟨-, rfl⟩ := (nodeText_prints.reads _ _ _ _).1 h
  rfl

theorem cleanLine_append (hw : '[' ∉ w) (s : Text) : cleanLine (w ++ s) = w ++ cleanLine s :=
  nodeText_prints.isLocal.replace_append_of_notMem nodeText_startsWith hw s

theorem exists_of_cleanLine_eq_append (hw : '[' ∉ w) (h : cleanLine s = w ++ r) :
    ∃ t, s = w ++ t ∧ cleanLine t = r :=
  nodeText_prints.isLocal.exists_of_replace_eq_append (fun _ => rfl) hw h

/-- What a line starts with, up to a bracket, is not changed by cleaning it. -/
theorem startsWith_cleanLine (hw : '[' ∉ w) (s : Text) :
    startsWith w (cleanLine s) = startsWith w s := by
  rw [Bool.eq_iff_iff, startsWith_iff, startsWith_iff]
  exact nodeText_prints.isLocal.prefix_replace_iff nodeText_startsWith (fun _ => rfl) hw

theorem quoted?_cons_eq_none_iff :
    quoted? (c :: s) = none ↔
      ¬(c = '"' ∧ [']'] <+: s) ∧ (isLineEnd c = true ∨ quoted? s = none) := by
  by_cases hclose : c = '"' ∧ [']'] <+: s
  · obtain ⟨rfl, r, rfl⟩ := hclose
    simp [quoted?]
  · have hopen : ∀ r, c = '"' → s = ']' :: r → False := by
      rintro r rfl rfl
      exact hclose ⟨rfl, r, rfl⟩
    rw [quoted?.eq_3 _ _ hopen]
    by_cases hend : isLineEnd c = true
    · simp [hclose, hend]
    · simp [hclose, hend]

/-- A text that is not closed stays open when the texts behind it are cleaned. -/
theorem quoted?_cleanLine_eq_none (h : quoted? s = none) : quoted? (cleanLine s) = none := by
  induction s using nodeText_prints.induct with
  | nil => rfl
  | plain c s hplain ih =>
    have hline : cleanLine (c :: s) = c :: cleanLine s := nodeText_prints.replace_cons hplain
    have hhead : [']'] <+: cleanLine s ↔ [']'] <+: s :=
      nodeText_prints.isLocal.prefix_replace_iff nodeText_startsWith (fun _ => rfl) (by decide)
    rw [quoted?_cons_eq_none_iff] at h
    rw [hline, quoted?_cons_eq_none_iff, hhead]
    exact ⟨h.1, h.2.imp_right ih⟩
  | token text r htext _ =>
    -- The next text closes an open one at the latest.
    have hopen : renderText text ++ r = '[' :: '"' :: (text ++ '"' :: ']' :: r) := by
      simp [renderText]
    have hfirst : quoted? ('"' :: (text ++ '"' :: ']' :: r)) = none := by
      rw [hopen, quoted?_cons_eq_none_iff] at h
      exact h.2.resolve_left (by decide)
    have hrest := (quoted?_cons_eq_none_iff.1 hfirst).2.resolve_left (by decide)
    rw [quoted?_append htext] at hrest
    cases hrest

/-- A bracket that opens no text opens none when the texts behind it are cleaned. -/
theorem nodeText_cleanLine_eq_none (h : nodeText true (c :: s) = none) :
    nodeText true (c :: cleanLine s) = none := by
  rw [Option.eq_none_iff_forall_ne_some]
  rintro ⟨text, r⟩ hread
  obtain ⟨htext, hline⟩ := nodeText?_eq_some_iff.1 hread
  obtain ⟨rfl, hquote⟩ := List.cons.inj hline
  obtain ⟨t, rfl, ht⟩ : ∃ t, s = ['"'] ++ t ∧ cleanLine t = text ++ '"' :: ']' :: r :=
    exists_of_cleanLine_eq_append (by decide) hquote
  have hopen : quoted? t = none := h
  have hclosed := quoted?_cleanLine_eq_none hopen
  rw [ht, quoted?_append htext] at hclosed
  cases hclosed

/-- **A search of a cleaned line** finds the cleaned texts in the place of the texts. -/
theorem scan_cleanLine (s : Text) :
    scan nodeText (cleanLine s) = (scan nodeText s).map (Piece.relabel renderText cleanText) :=
  nodeText_prints.scan_replace (fun _ h => h.cleanText)
    (fun _ _ h => nodeText_cleanLine_eq_none h) s

theorem hits_cleanLine (s : Text) : hits nodeText (cleanLine s) = hits nodeText s := by
  rw [hits, scan_cleanLine, List.countP_map, hits]
  refine List.countP_congr fun piece _ => ?_
  cases piece with
  | plain c => exact Iff.rfl
  | hit text w => exact Iff.rfl

/-! ## Edges -/

namespace Edge

/-- The line of an edge has no text of a node. -/
theorem hits_of_spells (he : e.WellFormed) (h : e.Spells line) : hits nodeText line = 0 := by
  rw [hits_eq_zero_iff nodeText_prints.isLocal]
  rintro r ⟨front, hfront⟩
  rw [Option.eq_none_iff_forall_ne_some]
  rintro ⟨text, rest⟩ hread
  obtain ⟨-, rfl⟩ := nodeText?_eq_some_iff.1 hread
  obtain ⟨w₁, w₂, w₃, w₄, hw₁, hw₂, hw₃, hw₄, -, hline⟩ := h
  have hblank : ∀ {w : Text}, Blank w → '"' ∉ w := fun hw => hw.notMem (by decide)
  have hword : ∀ {w : Text}, IsWord w → '"' ∉ w := fun hw => hw.notMem (by decide)
  have harrow : '"' ∉ e.arrow := he.arrow.notMem (by decide) (by decide)
  cases hlabel : e.label with
  | none =>
    have hquote : '"' ∉ line := by
      rw [hline, hlabel]
      simp [renderLabel, hblank he.indent, hword he.source, hblank hw₁, harrow, hblank hw₂,
        hblank hw₃, hword he.destination, hblank hw₄]
    exact hquote (by simp [← hfront])
  | some l =>
    -- The quotes of the label are the only two, so the one behind the bracket is the first.
    have hfirst : '"' ∉ e.indent ++ e.source ++ w₁ ++ e.arrow ++ w₂ ++ ['|'] := by
      simp [hblank he.indent, hword he.source, hblank hw₁, harrow, hblank hw₂]
    have hlast : '"' ∉ '|' :: (w₃ ++ (e.destination ++ w₄)) := by
      simp [hblank hw₃, hword he.destination, hblank hw₄]
    have hquotes : line = e.indent ++ e.source ++ w₁ ++ e.arrow ++ w₂ ++ ['|'] ++
        '"' :: (l ++ '"' :: '|' :: (w₃ ++ (e.destination ++ w₄))) := by
      simp [hline, hlabel, renderLabel]
    have htwo : line.count '"' = 2 := by
      rw [hquotes, List.count_append, List.count_eq_zero.2 hfirst, List.count_cons_self,
        List.count_append, List.count_eq_zero.2 (he.label l hlabel), List.count_cons_self,
        List.count_eq_zero.2 hlast]
    have hopen : line = front ++ ['['] ++ '"' :: (text ++ '"' :: ']' :: rest) := by
      simp [← hfront]
    have hbefore : '"' ∉ front ++ ['['] := by
      have hclosing : 0 < (text ++ '"' :: ']' :: rest).count '"' := by
        rw [List.count_pos_iff]
        simp
      rw [hopen, List.count_append, List.count_cons_self] at htwo
      rw [← List.count_eq_zero]
      omega
    obtain ⟨hbar, -⟩ := append_sep_inj hfirst hbefore (hquotes.symm.trans hopen)
    exact absurd (congrArg List.getLast? hbar) (by simp)

theorem cleanLine_of_spells (he : e.WellFormed) (h : e.Spells line) : cleanLine line = line :=
  replace_of_hits_eq_zero _ (hits_of_spells he h)

/-- **Cleaning a line makes no edge and takes none away.** -/
theorem parse_cleanLine (line : Text) (p : Int) : parse (cleanLine line) p = parse line p := by
  have hsame : ∀ e, parse line p = some e ∨ parse (cleanLine line) p = some e →
      cleanLine line = line := by
    rintro e (h | h)
    · obtain ⟨-, he, hspells⟩ := parse_eq_some_iff.1 h
      exact cleanLine_of_spells he hspells
    · obtain ⟨-, he, hspells⟩ := parse_eq_some_iff.1 h
      exact replace_of_hits_eq_zero _ ((hits_cleanLine line).symm.trans (hits_of_spells he hspells))
  refine Option.ext fun e => ?_
  constructor
  · intro h
    rwa [← hsame e (Or.inr h)]
  · intro h
    rwa [hsame e (Or.inl h)]

end Edge

/-! ## Declarations -/

theorem Declares.cleanLine (h : Declares line id text) :
    Declares (cleanLine line) id (cleanText text) := by
  obtain ⟨w₁, w₂, rest, hw₁, hid, hw₂, htext, rfl⟩ := h
  have htoken : ∀ text rest : Text,
      '[' :: '"' :: (text ++ '"' :: ']' :: rest) = renderText text ++ rest := by simp [renderText]
  refine ⟨w₁, w₂, Diagram.cleanLine rest, hw₁, hid, hw₂, htext.cleanText, ?_⟩
  have hrest : Diagram.cleanLine (renderText text ++ rest) =
      renderText (cleanText text) ++ Diagram.cleanLine rest :=
    nodeText_prints.replace_append htext rest
  rw [cleanLine_append (hw₁.notMem (by decide)), cleanLine_append (hid.notMem (by decide)),
    cleanLine_append (hw₂.notMem (by decide)), htoken, htoken, hrest]

theorem exists_declares_of_cleanLine (h : Declares (cleanLine line) id text) :
    ∃ t, Declares line id t := by
  obtain ⟨w₁, w₂, rest, hw₁, hid, hw₂, htext, hline⟩ := h
  obtain ⟨r₁, rfl, h₁⟩ := exists_of_cleanLine_eq_append (hw₁.notMem (by decide)) hline
  obtain ⟨r₂, rfl, h₂⟩ := exists_of_cleanLine_eq_append (hid.notMem (by decide)) h₁
  obtain ⟨r₃, rfl, h₃⟩ := exists_of_cleanLine_eq_append (hw₂.notMem (by decide)) h₂
  induction r₃ using nodeText_prints.induct with
  | nil => cases h₃
  | plain c s hplain _ =>
    have hread : nodeText true (Diagram.cleanLine (c :: s)) = some (text, rest) := by
      rw [h₃]
      exact nodeText?_eq_some_iff.2 ⟨htext, rfl⟩
    have hcons : Diagram.cleanLine (c :: s) = c :: Diagram.cleanLine s :=
      nodeText_prints.replace_cons hplain
    rw [hcons, nodeText_cleanLine_eq_none hplain] at hread
    cases hread
  | token t r ht _ => exact ⟨t, w₁, w₂, r, hw₁, hid, hw₂, ht, by simp [renderText]⟩

/-- **A cleaned line declares the cleaned text** of the node that the line declares. -/
theorem declaration?_cleanLine (line : Text) :
    declaration? (cleanLine line) = (declaration? line).map fun d => (d.1, cleanText d.2) := by
  cases hdecl : declaration? line with
  | none =>
    rw [declaration?_eq_none_iff] at hdecl
    rw [Option.map_none, declaration?_eq_none_iff]
    intro id text h
    obtain ⟨t, ht⟩ := exists_declares_of_cleanLine h
    exact hdecl id t ht
  | some d =>
    obtain ⟨id, text⟩ := d
    exact declaration?_eq_some_iff.2 (declaration?_eq_some_iff.1 hdecl).cleanLine

/-! ## Whole lines -/

namespace Line

/-- What a line says after its texts are cleaned. -/
def clean : Line → Line
  | edge e => edge e
  | node p id text => node p id (cleanText text)
  | other p raw => other p (cleanLine raw)

/-- **Cleaning a line and reading it** is reading it and cleaning what it says. -/
theorem parse_cleanLine (line : Text) (p : Int) :
    parse (cleanLine line) p = (parse line p).clean := by
  rw [parse, parse, Edge.parse_cleanLine, declaration?_cleanLine]
  cases Edge.parse line p with
  | some e => rfl
  | none =>
    cases declaration? line with
    | none => rfl
    | some d => rfl

theorem edge?_clean (l : Line) : l.clean.edge? = l.edge? := by cases l <;> rfl

theorem node?_clean (l : Line) : l.clean.node? = l.node?.map fun d => (d.1, cleanText d.2) := by
  cases l <;> rfl

theorem parseAll_cleanTexts (lines : List Text) :
    parseAll (cleanTexts lines) = (parseAll lines).map clean := by
  rw [parseAll, cleanTexts, List.zipIdx_map, List.map_map, parseAll, List.map_map]
  exact List.map_congr_left fun l _ => parse_cleanLine l.1 l.2

end Line

/-! ## Whole diagrams -/

/-- The graph with its texts cleaned. -/
def Graph.clean (g : Graph) : Graph :=
  { g with texts := g.texts.map fun d => (d.1, cleanText d.2) }

theorem Graph.ofLines_cleanTexts (lines : List Text) :
    Graph.ofLines (cleanTexts lines) = (Graph.ofLines lines).clean := by
  have hedges : ∀ said : List Line,
      (said.map Line.clean).filterMap Line.edge? = said.filterMap Line.edge? := by
    intro said
    rw [List.filterMap_map]
    exact List.filterMap_congr fun l _ => l.edge?_clean
  have hnodes : ∀ said : List Line, (said.map Line.clean).filterMap Line.node? =
      (said.filterMap Line.node?).map fun d => (d.1, cleanText d.2) := by
    intro said
    rw [List.filterMap_map, List.map_filterMap]
    exact List.filterMap_congr fun l _ => l.node?_clean
  rw [ofLines, Line.parseAll_cleanTexts, hedges, hnodes, Table.ofPairs_map]
  rfl

/-! ## Kinds of diagrams -/

theorem exists_eq_append_blank (s : Text) : ∃ w, Blank w ∧ s = trimEnd s ++ w := by
  refine ⟨(s.reverse.takeWhile isBlank).reverse, ?_, ?_⟩
  · intro c hc
    exact blank_takeWhile s.reverse c (List.mem_reverse.1 hc)
  · rw [trimEnd, ← List.reverse_append, List.takeWhile_append_dropWhile, List.reverse_reverse]

/-- Blanks at the end of a text do not matter to the word at its head. -/
theorem startsWith_trimEnd (hw : ∀ c ∈ w, isBlank c = false) (s : Text) :
    startsWith w (trimEnd s) = startsWith w s := by
  obtain ⟨b, hb, hs⟩ := exists_eq_append_blank s
  rw [Bool.eq_iff_iff, startsWith_iff, startsWith_iff]
  generalize trimEnd s = t at hs ⊢
  subst hs
  have htrim : t <+: t ++ b := List.prefix_append t b
  constructor
  · exact fun h => h.trans htrim
  · intro h
    rcases List.prefix_or_prefix_of_prefix h htrim with hshort | ⟨v, rfl⟩
    · exact hshort
    · -- What the word has behind the trimmed text is blank, so there is nothing.
      rw [List.prefix_append_right_inj] at h
      obtain rfl : v = [] := by
        refine List.eq_nil_iff_forall_not_mem.2 fun c hc => ?_
        have hblank := hb c (h.subset hc)
        rw [hw c (List.mem_append_right _ hc)] at hblank
        cases hblank
      rw [List.append_nil]

theorem trim_eq_nil_iff : trim s = [] ↔ trimStart s = [] := by
  constructor
  · intro h
    obtain ⟨w, hw, hs⟩ := exists_eq_append_blank (trimStart s)
    rw [show trimEnd (trimStart s) = [] from h, List.nil_append] at hs
    have hflush := flush_trimStart s
    rw [hs] at hflush ⊢
    cases w with
    | nil => rfl
    | cons c w => exact absurd (hflush c rfl) (by simp [hw c List.mem_cons_self])
  · intro h
    rw [trim, h]
    rfl

theorem trimStart_cleanLine (s : Text) : trimStart (cleanLine s) = cleanLine (trimStart s) := by
  obtain ⟨w, hw, hs⟩ := exists_eq_blank_append s
  have hflush : Flush (cleanLine (trimStart s)) := by
    intro c hc
    by_contra hblank
    rw [Bool.not_eq_false] at hblank
    have hbracket : '[' ∉ [c] := by
      rw [List.mem_singleton]
      rintro rfl
      exact absurd hblank (by decide)
    obtain ⟨r, hr⟩ := List.head?_eq_some_iff.1 hc
    obtain ⟨t, ht, -⟩ := exists_of_cleanLine_eq_append (w := [c]) hbracket hr
    have hstart := flush_trimStart s c (by simp [ht])
    rw [hblank] at hstart
    cases hstart
  conv_lhs => rw [hs, cleanLine_append (hw.notMem (by decide))]
  exact trimStart_append hw hflush

theorem cleanLine_eq_nil_iff : cleanLine s = [] ↔ s = [] := by
  constructor
  · intro h
    induction s using nodeText_prints.induct with
    | nil => rfl
    | plain c s hplain _ =>
      rw [cleanLine, nodeText_prints.replace_cons hplain] at h
      cases h
    | token text r htext _ =>
      rw [cleanLine, nodeText_prints.replace_append htext] at h
      cases h
  · rintro rfl
    rfl

/-- **Cleaning keeps the kind of a diagram.** -/
theorem Kind.ofLines_cleanTexts (lines : List Text) :
    Kind.ofLines (cleanTexts lines) = Kind.ofLines lines := by
  have hblank : ∀ line, (trim (cleanLine line)).isEmpty = (trim line).isEmpty := by
    intro line
    rw [Bool.eq_iff_iff, List.isEmpty_iff, List.isEmpty_iff, trim_eq_nil_iff, trim_eq_nil_iff,
      trimStart_cleanLine, cleanLine_eq_nil_iff]
  have hword : ∀ word ∈ flowchartWords, ∀ line,
      startsWith word (trim (cleanLine line)) = startsWith word (trim line) := by
    intro word hword line
    have hplain : word.all (fun c => !isBlank c) = true ∧ '[' ∉ word := by
      revert word
      decide
    have hsolid : ∀ c ∈ word, isBlank c = false := by simpa using hplain.1
    rw [trim, trim, startsWith_trimEnd hsolid, startsWith_trimEnd hsolid, trimStart_cleanLine,
      startsWith_cleanLine hplain.2]
  have hfind : (cleanTexts lines).find? (fun line => !(trim line).isEmpty) =
      (lines.find? fun line => !(trim line).isEmpty).map cleanLine := by
    rw [cleanTexts, List.find?_map]
    simp only [Function.comp_def, hblank]
  rw [ofLines, hfind, ofLines]
  cases lines.find? fun line => !(trim line).isEmpty with
  | none => rfl
  | some first =>
    have hany : flowchartWords.any (startsWith · (trim (cleanLine first))) =
        flowchartWords.any (startsWith · (trim first)) := by
      rw [Bool.eq_iff_iff, List.any_eq_true, List.any_eq_true]
      exact exists_congr fun word => and_congr_right fun hmem => by rw [hword word hmem]
    simp only [Option.map_some, hany]

/-- Cleaning commutes with reading. A line that states an edge is not changed. A line that declares
a node declares the same node with the cleaned text, and a line that says something else says
something else. The kind of the diagram is the same, and so is its graph up to the texts: the same
edges, the same exits and the same nodes, in the same order, each with its text cleaned. -/
theorem cleaning_commutes_with_reading :
    (∀ line p e, Line.parse line p = .edge e → cleanLine line = line) ∧
    (∀ line p q id text, Line.parse line p = .node q id text →
      Line.parse (cleanLine line) p = .node q id (cleanText text)) ∧
    (∀ line p q raw, Line.parse line p = .other q raw →
      Line.parse (cleanLine line) p = .other q (cleanLine line)) ∧
    (∀ lines, Kind.ofLines (cleanTexts lines) = Kind.ofLines lines) ∧
    ∀ lines, Graph.ofLines (cleanTexts lines) =
      { Graph.ofLines lines with
        texts := (Graph.ofLines lines).texts.map fun d => (d.1, cleanText d.2) } := by
  refine ⟨?_, ?_, ?_, Kind.ofLines_cleanTexts, Graph.ofLines_cleanTexts⟩
  · intro line p e h
    obtain ⟨-, he, hspells⟩ := Line.parse_eq_edge_iff.1 h
    exact Edge.cleanLine_of_spells he hspells
  · intro line p q id text h
    rw [Line.parse_cleanLine, h]
    rfl
  · intro line p q raw h
    obtain ⟨-, rfl, -⟩ := Line.parse_eq_other_iff.1 h
    rw [Line.parse_cleanLine, h]
    rfl

/-- An edge, a declaration and another line, each with something that is no text to show. -/
def panel : List Text :=
  ["A -->|\"[a](b)\"| B", "A [\"see [a](b)\"] %%", "subgraph S[\"- a\"]"].map String.toList

theorem panel_cleaned :
    (panel.map cleanLine).map String.ofList = ["A -->|\"[a](b)\"| B",
      "A [\"see Unsupported markdown: link\"] %%", "subgraph S[\"Unsupported markdown: list\"]"] ∧
    cleanLine (panel.getD 0 []) = panel.getD 0 [] ∧
    Line.parse (cleanLine (panel.getD 1 [])) 1 =
      .node 1 "A".toList (cleanText "see [a](b)".toList) ∧
    Line.parse (cleanLine (panel.getD 2 [])) 2 = .other 2 (cleanLine (panel.getD 2 [])) := by
  obtain ⟨hedge, hnode, hother, -⟩ := cleaning_commutes_with_reading
  refine ⟨by decide +kernel, ?_, ?_, ?_⟩
  · exact hedge _ 0 ⟨0, [], "A".toList, "B".toList, "-->".toList, some "[a](b)".toList⟩ (by decide)
  · exact hnode _ 1 1 _ _ (by decide)
  · exact hother _ 2 2 (panel.getD 2 []) (by decide)

end WikiTidy.Diagram
