import WikiTidy.Proofs.Diagram.Decisions
import WikiTidy.Proofs.Table

/-!
# When a label moves

**Theorem (`moves_on_evidence`).** At its turn a label moves to an exit exactly when the evidence is
clear (`Evident`): the label is an answer in so many words, its edge is the only exit of a node and
leads to a decision, and of the exits that have no label yet this is the only one, or it fits the
answer better than not at all and better than every other. How well an exit fits is told by the last
text that the lines declare for the node that it enters, or by the name of that node.

Two things that a turn looks at make no difference on the lines of a diagram. Among several exits
without a label none is the only one without a label, so if no score is positive nothing is chosen.
And an edge that took a label is one exit of several, so it would not give the label on anyway: a
pass that forgets which edges took one (`Pass.forget`) ends with the same edges and moves.
-/

namespace WikiTidy.Diagram

open Text

/-! ## Answers -/

/-- The label is the answer, whatever its case and the blanks around it. -/
def Answers (label : Text) : Polarity → Prop
  | .positive => lower (trim label) = "yes".toList ∨ lower (trim label) = "true".toList
  | .negative => lower (trim label) = "no".toList ∨ lower (trim label) = "false".toList

theorem polarity?_eq_some_iff {label : Text} {p : Polarity} :
    polarity? label = some p ↔ Answers label p := by
  have hpositive : lower (trim label) ∈ positiveLabels ↔ Answers label .positive := by
    simp [positiveLabels, Answers]
  have hnegative : lower (trim label) ∈ negativeLabels ↔ Answers label .negative := by
    simp [negativeLabels, Answers]
  have hone : Answers label .positive → ¬Answers label .negative := by
    rintro (h | h) (h' | h') <;> rw [h] at h' <;> exact absurd h' (by decide +kernel)
  simp only [polarity?, List.contains_eq_mem, decide_eq_true_eq]
  by_cases hp : Answers label .positive
  · rw [if_pos (hpositive.2 hp)]
    cases p with
    | positive => simp [hp]
    | negative => simp [hone hp]
  · rw [if_neg (hpositive.not.2 hp)]
    by_cases hn : Answers label .negative
    · rw [if_pos (hnegative.2 hn)]
      cases p with
      | positive => simp [hp]
      | negative => simp [hn]
    · rw [if_neg (hnegative.not.2 hn)]
      cases p with
      | positive => simp [hp]
      | negative => simp [hn]

/-! ## What the lines say of a node -/

/-- The text that lines declare last for a node, or its name. -/
def lastText (lines : List Text) (node : Text) : Text :=
  ((((Line.parseAll lines).filterMap Line.node?).filter fun d => d.1 = node).getLast?.map
    Prod.snd).getD node

theorem textOf_eq_lastText (lines : List Text) (node : Text) :
    Graph.textOf (Graph.ofLines lines).texts node = lastText lines node := by
  show ((Table.ofPairs ((Line.parseAll lines).filterMap Line.node?)).get? node).getD node = _
  rw [Table.get?_ofPairs, lastText]

/-- How well the edge at a place fits an answer. -/
def fit (lines : List Text) (p : Polarity) (i : Nat) : Int :=
  ((Graph.ofLines lines).edges[i]?.map fun e => score (lastText lines e.destination) p).getD 0

theorem scoreAt_eq_fit (lines : List Text) :
    scoreAt (Graph.ofLines lines).edges (Graph.ofLines lines).texts = fit lines := by
  funext p i
  rw [scoreAt, fit]
  cases (Graph.ofLines lines).edges[i]? with
  | none => rfl
  | some e =>
    show score (Graph.textOf _ e.destination) p = _
    rw [textOf_eq_lastText]
    rfl

/-- The pass without the memory of the edges that took a label. -/
def Pass.forget (pass : Pass) : Pass := { pass with claimed := [] }

namespace Graph

variable {g : Graph} {pass pass' : Pass} {m : Move} {e : Edge} {p : Polarity} {edges : List Edge}
  {lines : List Text} {node l : Text} {i n t : Nat}

/-! ## The moves of a pass, turn by turn -/

/-- Where a pass stands when the turn of the edge at a place comes. -/
def before (g : Graph) (i : Nat) : Pass := (List.range i).foldl g.turn g.start

theorem before_succ (g : Graph) (n : Nat) : g.before (n + 1) = g.turn (g.before n) n := by
  rw [before, List.range_succ, List.foldl_append]
  rfl

theorem reached_before (g : Graph) (n : Nat) : g.Reached (g.before n) :=
  g.reached_start.foldl (List.range n)

/-- A turn adds the move of its edge to the moves. -/
theorem moves_turn (g : Graph) (pass : Pass) (i : Nat) :
    (g.turn pass i).moves = pass.moves ++ (g.moveAt pass i).toList.map fun m => ⟨i, m.1, m.2⟩ := by
  rw [turn, moveAt]
  cases pass.edges[i]?.bind (g.target? pass i) with
  | none => simp
  | some m => rfl

theorem mem_moves_before (n : Nat) :
    m ∈ (g.before n).moves ↔
      m.origin < n ∧ g.moveAt (g.before m.origin) m.origin = some (m.target, m.label) := by
  induction n with
  | zero => simp [before, start]
  | succ n ih =>
    have hnew : m ∈ (g.moveAt (g.before n) n).toList.map (fun m => (⟨n, m.1, m.2⟩ : Move)) ↔
        m.origin = n ∧ g.moveAt (g.before n) n = some (m.target, m.label) := by
      rw [List.mem_map]
      constructor
      · rintro ⟨x, hx, rfl⟩
        exact ⟨rfl, Option.mem_toList.1 hx⟩
      · rintro ⟨rfl, hx⟩
        exact ⟨_, Option.mem_toList.2 hx, rfl⟩
    rw [before_succ, moves_turn, List.mem_append, ih, hnew]
    constructor
    · rintro (⟨hlt, hmove⟩ | ⟨rfl, hmove⟩)
      · exact ⟨Nat.lt_succ_of_lt hlt, hmove⟩
      · exact ⟨Nat.lt_succ_self _, hmove⟩
    · rintro ⟨hlt, hmove⟩
      rcases Nat.lt_succ_iff_lt_or_eq.1 hlt with hlt | rfl
      · exact Or.inl ⟨hlt, hmove⟩
      · exact Or.inr ⟨rfl, hmove⟩

theorem Reached.length_eq (hr : g.Reached pass) : pass.edges.length = g.edges.length := by
  simpa using congrArg List.length hr.bare

/-! ## The evidence -/

/-- With the labels as they are on the edges, it is clear that the label of the edge at place `i`
belongs to the one at place `t`. -/
def Evident (lines : List Text) (edges : List Edge) (i t : Nat) (label : Text) : Prop :=
  ∃ e p, edges[i]? = some e ∧ e.label = some label ∧ Answers label p ∧
    (ofLines lines).exitsAt e.source = [i] ∧ 2 ≤ ((ofLines lines).exitsAt e.destination).length ∧
    ((ofLines lines).free edges e.destination = [t] ∨
      2 ≤ ((ofLines lines).free edges e.destination).length ∧
      t ∈ (ofLines lines).free edges e.destination ∧ 0 < fit lines p t ∧
      ∀ c ∈ (ofLines lines).free edges e.destination, c ≠ t → fit lines p c < fit lines p t)

theorem exitsAt_eq_singleton_iff (h : g.Consistent) (he : g.edges[i]? = some e) :
    g.exitsAt e.source = [i] ↔ (g.exitsAt e.source).length ≤ 1 := by
  constructor
  · intro hone
    rw [hone]
    exact Nat.le_refl 1
  · intro hlone
    have hmem : i ∈ g.exitsAt e.source := (mem_exitsAt_iff h).2 ⟨e, he, rfl⟩
    obtain ⟨j, hj⟩ := List.length_eq_one_iff.1 (Nat.le_antisymm hlone (List.length_pos_of_mem hmem))
    rw [hj, List.mem_singleton] at hmem
    rw [hj, hmem]

/-- An exit that leads is one of several, or the only one. -/
theorem choose_free_eq_some_iff (hr : (ofLines lines).Reached pass) :
    choose pass.edges (ofLines lines).texts ((ofLines lines).free pass.edges node) p = some t ↔
      ((ofLines lines).free pass.edges node = [t] ∨
        2 ≤ ((ofLines lines).free pass.edges node).length ∧
        t ∈ (ofLines lines).free pass.edges node ∧ 0 < fit lines p t ∧
        ∀ c ∈ (ofLines lines).free pass.edges node, c ≠ t → fit lines p c < fit lines p t) := by
  have h := consistent_ofLines lines
  rw [choose_eq_some_iff (nodup_free h _) isUnlabelled_of_mem_free]
  have hfit : scoreAt pass.edges (ofLines lines).texts = fit lines := by
    rw [scoreAt_eq_of_map_bare_eq hr.bare, scoreAt_eq_fit]
  constructor
  · rintro (hone | ⟨hmem, hpos, hlt⟩)
    · exact Or.inl hone
    · rw [hfit] at hpos hlt
      rcases Nat.lt_or_ge ((ofLines lines).free pass.edges node).length 2 with hfew | hmany
      · obtain ⟨c, hc⟩ := List.length_eq_one_iff.1
          (Nat.le_antisymm (Nat.le_of_lt_succ hfew) (List.length_pos_of_mem hmem))
        rw [hc, List.mem_singleton] at hmem
        exact Or.inl (hmem ▸ hc)
      · exact Or.inr ⟨hmany, hmem, hpos, hlt⟩
  · rintro (hone | ⟨-, hmem, hpos, hlt⟩)
    · exact Or.inl hone
    · refine Or.inr ⟨hmem, ?_, ?_⟩
      · rwa [hfit]
      · rwa [hfit]

theorem moveAt_eq_some_iff_evident (hr : (ofLines lines).Reached pass)
    (hi : i < (ofLines lines).edges.length) :
    (ofLines lines).moveAt pass i = some (t, l) ↔ Evident lines pass.edges i t l := by
  have h := consistent_ofLines lines
  have he := List.getElem?_eq_getElem hi
  generalize (ofLines lines).edges[i] = e at he
  have hnow := hr.getElem? he
  rw [moveAt_eq_some_iff h hr he]
  constructor
  · rintro ⟨hlabel, hlone, hdecision, p, hp, hchosen⟩
    exact ⟨_, p, hnow, hlabel, polarity?_eq_some_iff.1 hp,
      (exitsAt_eq_singleton_iff h he).2 hlone, hdecision, (choose_free_eq_some_iff hr).1 hchosen⟩
  · rintro ⟨f, p, hf, hlabel, hp, hlone, hdecision, hclear⟩
    obtain rfl := Option.some.inj (hnow.symm.trans hf)
    exact ⟨hlabel, (exitsAt_eq_singleton_iff h he).1 hlone, hdecision, p,
      polarity?_eq_some_iff.2 hp, (choose_free_eq_some_iff hr).2 hclear⟩

theorem mem_relocate_iff (lines : List Text) (i t : Nat) (l : Text) :
    ⟨i, t, l⟩ ∈ (ofLines lines).relocate.2 ↔
      Evident lines ((ofLines lines).before i).edges i t l := by
  have hmoves : ⟨i, t, l⟩ ∈ (ofLines lines).relocate.2 ↔ i < (ofLines lines).edges.length ∧
      (ofLines lines).moveAt ((ofLines lines).before i) i = some (t, l) :=
    mem_moves_before (ofLines lines).edges.length
  have hr := reached_before (ofLines lines) i
  rw [hmoves]
  constructor
  · rintro ⟨hi, hmove⟩
    exact (moveAt_eq_some_iff_evident hr hi).1 hmove
  · intro hevident
    have ⟨e, p, he, _⟩ := hevident
    have hi : i < (ofLines lines).edges.length := by
      rw [← hr.length_eq]
      exact (List.getElem?_eq_some_iff.1 he).1
    exact ⟨hi, (moveAt_eq_some_iff_evident hr hi).2 hevident⟩

/-! ## Without the memory of the edges that took a label -/

theorem Reached.forget (hr : g.Reached pass) : g.Reached pass.forget where
  bare := hr.bare
  claimed _ hi := absurd hi List.not_mem_nil

theorem moveAt_forget (h : g.Consistent) (hr : g.Reached pass) (i : Nat) :
    g.moveAt pass.forget i = g.moveAt pass i := by
  cases he : g.edges[i]? with
  | none =>
    have hnone : pass.edges[i]? = none := by
      rw [List.getElem?_eq_none_iff, ← hr.length_eq] at he
      exact List.getElem?_eq_none he
    simp [moveAt, Pass.forget, hnone]
  | some e =>
    apply Option.ext
    intro m
    obtain ⟨t, l⟩ := m
    rw [moveAt_eq_some_iff h hr.forget he, moveAt_eq_some_iff h hr he]
    rfl

theorem forget_turn (h : g.Consistent) (hr : g.Reached pass) (i : Nat) :
    (g.turn pass.forget i).forget = (g.turn pass i).forget := by
  have hmove := moveAt_forget h hr i
  rw [moveAt, moveAt] at hmove
  rw [turn, turn, hmove]
  cases pass.edges[i]?.bind (g.target? pass i) <;> rfl

theorem forget_foldl (h : g.Consistent) (hr : g.Reached pass) (hr' : g.Reached pass')
    (hsame : pass'.forget = pass.forget) (order : List Nat) :
    (order.foldl (fun pass i => g.turn pass.forget i) pass').forget =
      (order.foldl g.turn pass).forget := by
  induction order generalizing pass pass' with
  | nil => exact hsame
  | cons i order ih =>
    refine ih (hr.turn i) (hr'.forget.turn i) ?_
    show (g.turn pass'.forget i).forget = _
    rw [hsame, forget_turn h hr]

/-- **Labels move on clear evidence.** A move is made exactly if it is evident when its turn comes.
At every turn, several exits of which none fits the answer are left alone; and at every turn, and so
in the whole pass, it makes no difference which edges have taken a label. -/
theorem moves_on_evidence (lines : List Text) :
    (∀ i t l, ⟨i, t, l⟩ ∈ (ofLines lines).relocate.2 ↔
      Evident lines ((ofLines lines).before i).edges i t l) ∧
    (∀ i node p, 2 ≤ ((ofLines lines).free ((ofLines lines).before i).edges node).length →
      (∀ c ∈ (ofLines lines).free ((ofLines lines).before i).edges node, fit lines p c ≤ 0) →
      choose ((ofLines lines).before i).edges (ofLines lines).texts
        ((ofLines lines).free ((ofLines lines).before i).edges node) p = none) ∧
    (∀ i, (ofLines lines).moveAt ((ofLines lines).before i).forget i =
      (ofLines lines).moveAt ((ofLines lines).before i) i) ∧
    ((List.range (ofLines lines).edges.length).foldl
      (fun pass i => (ofLines lines).turn pass.forget i) (ofLines lines).start).forget =
      (ofLines lines).runPass.forget := by
  have h := consistent_ofLines lines
  refine ⟨mem_relocate_iff lines, ?_, fun i => moveAt_forget h (reached_before _ i) i, ?_⟩
  · intro i node p hmany hlow
    rw [Option.eq_none_iff_forall_ne_some]
    intro t hchosen
    rcases (choose_free_eq_some_iff (reached_before _ i)).1 hchosen with
      hone | ⟨-, hmem, hpos, -⟩
    · rw [hone] at hmany
      exact absurd hmany (by simp)
    · have := hlow t hmem
      omega
  · exact forget_foldl h (reached_start _) (reached_start _) rfl _

/-- Two decisions. The exits of the first are told apart by the text that one of them got last, the
exits of the second by nothing. -/
def junction : List Text :=
  ["X -->|\" Yes\"| D", "Z -->|\"no\"| E", "D --> a", "D --> fail", "E --> p", "E --> q",
    "a[\"stop\"]", "a[\"use it\"]"].map String.toList

theorem junction_moves :
    ⟨0, 2, " Yes".toList⟩ ∈ (ofLines junction).relocate.2 ∧
      choose ((ofLines junction).before 1).edges (ofLines junction).texts
        ((ofLines junction).free ((ofLines junction).before 1).edges "E".toList) .negative = none := by
  obtain ⟨hmoves, hlow, -, -⟩ := moves_on_evidence junction
  have hevident : Evident junction ((ofLines junction).before 0).edges 0 2 " Yes".toList := by
    refine ⟨⟨0, [], "X".toList, "D".toList, "-->".toList, some " Yes".toList⟩, .positive, ?_⟩
    refine ⟨by decide +kernel, rfl, Or.inl ?_, ?_⟩
    · decide +kernel
    · decide +kernel
  exact ⟨(hmoves 0 2 _).2 hevident, hlow 1 "E".toList .negative (by decide +kernel)
    (by decide +kernel)⟩

end Graph

end WikiTidy.Diagram
