import Mathlib.Data.List.Infix
import WikiTidy.Diagram.Line
import WikiTidy.Proofs.Diagram.EdgeLine

/-!
# What a line of a diagram says

**Theorem (`parse_grammar`).** A line states an edge exactly when it spells the well-formed parts of
one, it declares a node exactly when it starts with a name and a text in brackets and quotes, and it
says something else exactly when it does neither. No line does both, and what it says can be read
off it in one way only.

Edges are settled in `EdgeLine`. In a declaration the text goes to the first `"]`. That mark must
start nowhere in the text, not even in a quote at its end, so it is looked for in the text with the
closing quote behind it (`IsNodeText`). The two kinds of lines are told apart by what follows the
first name and its blanks, a shaft or a bracket.
-/

namespace WikiTidy.Diagram

open Text

variable {line s text rest id raw : Text} {p q : Int} {c : Char} {e : Edge}

/-! ## Texts of nodes -/

/-- What can stand between `["` and `"]`: nothing in it ends a line, and no `"]` starts in it. -/
structure IsNodeText (text : Text) : Prop where
  line : ∀ c ∈ text, isLineEnd c = false
  first : ¬['"', ']'] <:+: text ++ ['"']

theorem isNodeText_nil : IsNodeText [] where
  line := by simp
  first h := absurd h.length_le (by decide)

theorem isNodeText_cons :
    IsNodeText (c :: text) ↔
      isLineEnd c = false ∧ ¬(c = '"' ∧ [']'] <+: text ++ ['"']) ∧ IsNodeText text := by
  have hfirst : ['"', ']'] <:+: c :: text ++ ['"'] ↔
      (c = '"' ∧ [']'] <+: text ++ ['"']) ∨ ['"', ']'] <:+: text ++ ['"'] := by
    rw [List.cons_append, List.infix_cons_iff, List.cons_prefix_cons, eq_comm (a := '"')]
  constructor
  · rintro ⟨hline, hno⟩
    rw [hfirst, not_or] at hno
    obtain ⟨hc, htext⟩ := List.forall_mem_cons.1 hline
    exact ⟨hc, hno.1, htext, hno.2⟩
  · rintro ⟨hc, hhead, htext, hno⟩
    exact ⟨List.forall_mem_cons.2 ⟨hc, htext⟩, hfirst.not.2 (not_or.2 ⟨hhead, hno⟩)⟩

/-- A text is read up to its closing mark. -/
theorem quoted?_append (h : IsNodeText text) :
    quoted? (text ++ '"' :: ']' :: rest) = some (text, rest) := by
  induction text with
  | nil => rfl
  | cons c text ih =>
    obtain ⟨hc, hhead, htext⟩ := isNodeText_cons.1 h
    have hopen : ∀ r, c = '"' → text ++ '"' :: ']' :: rest = ']' :: r → False := by
      intro r hquote hr
      refine hhead ⟨hquote, ?_⟩
      cases text with
      | nil => cases hr
      | cons d text => simp [(List.cons.inj hr).1]
    rw [List.cons_append, quoted?.eq_3 _ _ hopen, hc, ih htext]
    rfl

/-- What is read as a text is one, and its closing mark stands behind it. -/
theorem isNodeText_of_quoted? (h : quoted? s = some (text, rest)) :
    IsNodeText text ∧ s = text ++ '"' :: ']' :: rest := by
  induction s using quoted?.induct generalizing text with
  | case1 => cases h
  | case2 s =>
    obtain ⟨rfl, rfl⟩ : [] = text ∧ s = rest := by simpa [quoted?] using h
    exact ⟨isNodeText_nil, rfl⟩
  | case3 c s hopen hend =>
    rw [quoted?.eq_3 _ _ hopen, if_pos hend] at h
    cases h
  | case4 c s hopen hend ih =>
    rw [quoted?.eq_3 _ _ hopen, if_neg hend, Option.map_eq_some_iff] at h
    obtain ⟨⟨t, r⟩, hread, he⟩ := h
    obtain ⟨rfl, rfl⟩ := Prod.mk.inj he
    obtain ⟨ht, rfl⟩ := ih hread
    refine ⟨isNodeText_cons.2 ⟨by simpa using hend, ?_, ht⟩, rfl⟩
    rintro ⟨rfl, hhead⟩
    -- A `"]` that starts with this quote ends the text here.
    cases t with
    | nil => simp at hhead
    | cons d t =>
      obtain rfl : ']' = d := by simpa using hhead
      exact hopen _ rfl rfl

/-! ## Declarations -/

/-- The line starts with the name of a node and its text in brackets and quotes, with blanks in
front of the name and behind it. -/
def Declares (line id text : Text) : Prop :=
  ∃ w₁ w₂ rest, Blank w₁ ∧ IsWord id ∧ Blank w₂ ∧ IsNodeText text ∧
    line = w₁ ++ (id ++ (w₂ ++ '[' :: '"' :: (text ++ '"' :: ']' :: rest)))

theorem nodeText?_eq_some_iff :
    nodeText? s = some (text, rest) ↔
      IsNodeText text ∧ s = '[' :: '"' :: (text ++ '"' :: ']' :: rest) := by
  simp only [nodeText?, Option.bind_eq_bind, Option.bind_eq_some_iff, after?_eq_some_iff]
  constructor
  · rintro ⟨r, rfl, hread⟩
    obtain ⟨htext, rfl⟩ := isNodeText_of_quoted? hread
    exact ⟨htext, rfl⟩
  · rintro ⟨htext, rfl⟩
    exact ⟨_, rfl, quoted?_append htext⟩

/-- A declaration is read exactly where a line has one. -/
theorem declaration?_eq_some_iff : declaration? line = some (id, text) ↔ Declares line id text := by
  simp only [declaration?, Option.bind_eq_bind, Option.bind_eq_some_iff]
  constructor
  · rintro ⟨⟨name, s⟩, hname, ⟨t, rest⟩, htext, he⟩
    obtain ⟨rfl, rfl⟩ : name = id ∧ t = text := by simpa using he
    obtain ⟨w₁, hw₁, hline⟩ := exists_eq_blank_append line
    obtain ⟨w₂, hw₂, hs⟩ := exists_eq_blank_append s
    obtain ⟨hstart, hne, hall, -⟩ := run?_eq_some hname
    obtain ⟨ht, hrest⟩ := nodeText?_eq_some_iff.1 htext
    refine ⟨w₁, w₂, rest, hw₁, ⟨hne, hall⟩, hw₂, ht, ?_⟩
    rw [← hrest, ← hs, ← hstart, ← hline]
  · rintro ⟨w₁, w₂, rest, hw₁, hid, hw₂, ht, rfl⟩
    generalize htail : '[' :: '"' :: (text ++ '"' :: ']' :: rest) = tail
    have hbracket : ∀ c ∈ (w₂ ++ tail).head?, isWordChar c = false :=
      Edge.head_of_blank hw₂ (by simp [← htail]; decide)
    have hname : run? isWordChar (trimStart (w₁ ++ (id ++ (w₂ ++ tail)))) =
        some (id, w₂ ++ tail) := by
      rw [trimStart_append hw₁ (hid.flush _), run?_word hid hbracket]
    have hopen : trimStart (w₂ ++ tail) = tail :=
      trimStart_append hw₂ (by simp [Flush, ← htail]; decide)
    exact ⟨_, hname, _, nodeText?_eq_some_iff.2 ⟨ht, hopen.trans htail.symm⟩, rfl⟩

theorem declaration?_eq_none_iff :
    declaration? line = none ↔ ∀ id text, ¬Declares line id text := by
  simp [Option.eq_none_iff_forall_ne_some, declaration?_eq_some_iff]

/-- **A line that states an edge declares no node.** -/
theorem declaration?_of_parse (h : Edge.parse line p = some e) : declaration? line = none := by
  rw [Option.eq_none_iff_forall_ne_some]
  intro x hdecl
  simp only [Edge.parse, Option.bind_eq_bind, Option.bind_eq_some_iff] at h
  obtain ⟨⟨source, s⟩, hsource, ⟨arrow, r⟩, harrow, -⟩ := h
  simp only [declaration?, Option.bind_eq_bind, Option.bind_eq_some_iff] at hdecl
  obtain ⟨⟨name, s'⟩, hname, ⟨t, rest⟩, htext, -⟩ := hdecl
  obtain ⟨rfl, rfl⟩ : source = name ∧ s = s' := by
    simpa using hsource.symm.trans hname
  -- The first character behind the name and its blanks is both a shaft and a bracket.
  obtain ⟨harrow, hs⟩ := arrow?_eq_some_iff.1 harrow
  obtain ⟨c, r', hcr, hc⟩ := harrow.head r
  obtain ⟨-, hbracket⟩ := nodeText?_eq_some_iff.1 htext
  dsimp only at hs hbracket
  rw [hs, hcr] at hbracket
  obtain ⟨rfl, -⟩ := List.cons.inj hbracket
  exact absurd hc (by decide)

/-! ## Whole lines -/

/-- The place of a line has no part in what it spells. -/
theorem Edge.parse_eq_none_iff :
    parse line p = none ↔ ∀ e : Edge, e.WellFormed → ¬e.Spells line := by
  rw [Option.eq_none_iff_forall_ne_some]
  constructor
  · intro h e he hspells
    have hmoved : WellFormed { e with position := p } :=
      ⟨he.indent, he.source, he.arrow, he.label, he.destination⟩
    exact h _ (parse_of_spells hmoved hspells)
  · intro h e hread
    obtain ⟨-, he, hspells⟩ := parse_eq_some_iff.1 hread
    exact h e he hspells

namespace Line

theorem parse_eq_edge_iff :
    parse line p = .edge e ↔ e.position = p ∧ e.WellFormed ∧ e.Spells line := by
  rw [← Edge.parse_eq_some_iff]
  cases hedge : Edge.parse line p with
  | some e' => simp [parse, hedge]
  | none => cases hdecl : declaration? line <;> simp [parse, hedge, hdecl]

theorem parse_eq_node_iff :
    parse line p = .node q id text ↔ q = p ∧ Declares line id text := by
  rw [← declaration?_eq_some_iff]
  cases hedge : Edge.parse line p with
  | some e => simp [parse, hedge, declaration?_of_parse hedge]
  | none =>
    cases hdecl : declaration? line with
    | none => simp [parse, hedge, hdecl]
    | some x => simp [parse, hedge, hdecl, eq_comm (a := p), Prod.ext_iff]

theorem parse_eq_other_iff :
    parse line p = .other q raw ↔ q = p ∧ raw = line ∧
      (∀ e : Edge, e.WellFormed → ¬e.Spells line) ∧ ∀ id text, ¬Declares line id text := by
  rw [← Edge.parse_eq_none_iff (p := p), ← declaration?_eq_none_iff]
  cases hedge : Edge.parse line p with
  | some e => simp [parse, hedge]
  | none =>
    cases hdecl : declaration? line with
    | none => simp [parse, hedge, hdecl, eq_comm (a := p), eq_comm (a := line)]
    | some x => simp [parse, hedge, hdecl]

/-- **The grammar of lines.** What a line says is what it spells: an edge, a declaration, or
something else. It spells one thing only, and an edge that is written is read back. -/
theorem parse_grammar (line : Text) (p : Int) :
    (∀ e, parse line p = .edge e ↔ e.position = p ∧ e.WellFormed ∧ e.Spells line) ∧
    (∀ q id text, parse line p = .node q id text ↔ q = p ∧ Declares line id text) ∧
    (∀ q raw, parse line p = .other q raw ↔ q = p ∧ raw = line ∧
      (∀ e : Edge, e.WellFormed → ¬e.Spells line) ∧ ∀ id text, ¬Declares line id text) ∧
    (∀ e e' : Edge, e.WellFormed → e.Spells line → e'.WellFormed → e'.Spells line →
      e.position = e'.position → e = e') ∧
    (∀ id text id' text', Declares line id text → Declares line id' text' →
      id = id' ∧ text = text') ∧
    (∀ (e : Edge) id text, e.WellFormed → e.Spells line → ¬Declares line id text) ∧
    ∀ e : Edge, e.WellFormed → parse e.render e.position = .edge e := by
  refine ⟨fun _ => parse_eq_edge_iff, fun _ _ _ => parse_eq_node_iff,
    fun _ _ => parse_eq_other_iff, ?_, ?_, ?_, ?_⟩
  · intro e e' he hspells he' hspells' hposition
    have hread := Edge.parse_of_spells he hspells
    rw [hposition, Edge.parse_of_spells he' hspells'] at hread
    exact (Option.some.inj hread).symm
  · intro id text id' text' hdecl hdecl'
    rw [← declaration?_eq_some_iff] at hdecl hdecl'
    simpa using hdecl.symm.trans hdecl'
  · intro e id text he hspells hdecl
    rw [← declaration?_eq_some_iff,
      declaration?_of_parse (Edge.parse_of_spells he hspells)] at hdecl
    cases hdecl
  · intro e he
    exact parse_eq_edge_iff.2 ⟨rfl, he, e.spells_render⟩

/-- An edge whose label looks like other parts of a diagram. -/
def tightEdge : Edge where
  position := 3
  indent := "  ".toList
  source := "A_1".toList
  destination := "B".toList
  arrow := "-.->".toList
  label := some "a|b --> [c]".toList

/-- A line that states it, with no blanks where none are needed. -/
def tightLine : Text := "  A_1-.->|\"a|b --> [c]\"|B\t".toList

theorem tightLine_states_tightEdge :
    tightEdge.WellFormed ∧ tightEdge.Spells tightLine ∧
      parse tightLine 3 = .edge tightEdge ∧ parse tightEdge.render 3 = .edge tightEdge ∧
      ∀ id text, ¬Declares tightLine id text := by
  have hread : Edge.parse tightLine 3 = some tightEdge := by decide
  obtain ⟨hposition, hwell, hspells⟩ := Edge.parse_eq_some_iff.1 hread
  obtain ⟨hedge, -, -, -, -, halone, hrender⟩ := parse_grammar tightLine 3
  exact ⟨hwell, hspells, (hedge tightEdge).2 ⟨hposition, hwell, hspells⟩, hrender tightEdge hwell,
    fun id text => halone tightEdge id text hwell hspells⟩

example : parse "A [\"x \"y\"] z\"]".toList 0 = .node 0 "A".toList "x \"y".toList := by decide

end Line

end WikiTidy.Diagram
