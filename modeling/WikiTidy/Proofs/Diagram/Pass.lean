import WikiTidy.Proofs.Diagram.EdgeLine
import WikiTidy.Proofs.Diagram.Choice

/-!
# A pass over the edges of a graph

A turn of a pass moves the label of a *giver* to the exit chosen at its destination, and does
nothing if there is no such exit (`turn_eq_or`). What every turn keeps holds after the pass
(`runPass_induction`).

A pass moves labels and touches nothing else: the edges stay what they are up to their labels
(`bare_runPass`), and they stay edges that a line can state (`wellFormed_runPass`).

A giver is the only exit of its source, and an edge that takes a label is one exit of several. So
no edge is both: a giver that has lost its label never gets another.
-/

namespace WikiTidy.Diagram

open Text

namespace Graph

/-- The edge would give away its label, which gives the answer `p`: it is the only exit of its
source, and it leads to a decision. -/
structure Giver (g : Graph) (e : Edge) (p : Polarity) : Prop where
  answer : e.label.bind polarity? = some p
  lone : (g.exitsAt e.source).length ≤ 1
  decision : 2 ≤ (g.exitsAt e.destination).length

variable {g : Graph} {pass : Pass} {e : Edge} {i t : Nat} {l : Text}

theorem target?_eq_some_iff :
    g.target? pass i e = some (t, l) ↔ e.label = some l ∧ i ∉ pass.claimed ∧
      ∃ p, g.Giver e p ∧
        choose pass.edges g.texts (g.free pass.edges e.destination) p = some t := by
  simp only [target?, Option.bind_eq_bind, Option.bind_eq_some_iff, Option.guard_eq_some']
  constructor
  · rintro ⟨label, hlabel, -, hclaimed, p, hp, -, hlone, -, hdecision, t', hchoose, he⟩
    obtain ⟨rfl, rfl⟩ : t' = t ∧ label = l := by simpa using he
    exact ⟨hlabel, by simpa using hclaimed, p, ⟨by simpa [hlabel] using hp, hlone, hdecision⟩,
      hchoose⟩
  · rintro ⟨hlabel, hclaimed, p, ⟨hp, hlone, hdecision⟩, hchoose⟩
    exact ⟨l, hlabel, (), by simpa using hclaimed, p, by simpa [hlabel] using hp, (), hlone, (),
      hdecision, t, hchoose, rfl⟩

end Graph

/-- The pass after a label has moved. -/
def Pass.move (pass : Pass) (m : Move) : Pass where
  edges := setLabel (setLabel pass.edges m.target (some m.label)) m.origin none
  claimed := m.target :: pass.claimed
  moves := pass.moves ++ [m]

theorem getElem?_move (pass : Pass) (m : Move) (j : Nat) :
    (pass.move m).edges[j]? =
      if m.origin = j then pass.edges[j]?.map fun e => { e with label := none }
      else if m.target = j then pass.edges[j]?.map fun e => { e with label := some m.label }
      else pass.edges[j]? := by
  simp only [Pass.move, getElem?_setLabel]
  split
  · split
    · simp [Option.map_map, Function.comp_def]
    · rfl
  · rfl

namespace Graph

/-- In this state of a pass the edge makes the move. -/
structure Makes (g : Graph) (pass : Pass) (m : Move) (e : Edge) (p : Polarity) : Prop where
  edge : pass.edges[m.origin]? = some e
  label : e.label = some m.label
  unclaimed : m.origin ∉ pass.claimed
  giver : g.Giver e p
  chosen : choose pass.edges g.texts (g.free pass.edges e.destination) p = some m.target

variable {g : Graph} {pass : Pass} {e : Edge} {i t : Nat} {l : Text}

theorem isUnlabelled_of_mem_free {edges : List Edge} {node : Text} : ∀ c ∈ g.free edges node,
    isUnlabelled edges c = true := fun _ hc => (List.mem_filter.1 hc).2

theorem Makes.target_mem {m : Move} {p : Polarity} (hmakes : g.Makes pass m e p) :
    m.target ∈ g.exitsAt e.destination :=
  List.mem_of_mem_filter (mem_of_choose hmakes.chosen)

theorem Makes.target_unlabelled {m : Move} {p : Polarity} (hmakes : g.Makes pass m e p) :
    isUnlabelled pass.edges m.target = true :=
  isUnlabelled_of_mem_free _ (mem_of_choose hmakes.chosen)

/-- A turn makes the move that its edge can make, or none if there is none. -/
theorem turn_eq_or (g : Graph) (pass : Pass) (i : Nat) :
    (g.turn pass i = pass ∧ ∀ m e p, m.origin = i → ¬ g.Makes pass m e p) ∨
      ∃ m e p, m.origin = i ∧ g.Makes pass m e p ∧ g.turn pass i = pass.move m := by
  unfold turn
  split
  · next hnone =>
    refine Or.inl ⟨rfl, ?_⟩
    rintro m e p rfl ⟨hedge, hlabel, hclaimed, hgiver, hchosen⟩
    rw [hedge, Option.bind_some, target?_eq_some_iff.2 ⟨hlabel, hclaimed, p, hgiver, hchosen⟩]
      at hnone
    exact absurd hnone (by simp)
  · next t l hsome =>
    obtain ⟨e, hedge, htarget⟩ := Option.bind_eq_some_iff.1 hsome
    obtain ⟨hlabel, hclaimed, p, hgiver, hchosen⟩ := target?_eq_some_iff.1 htarget
    exact Or.inr ⟨⟨i, t, l⟩, e, p, rfl, ⟨hedge, hlabel, hclaimed, hgiver, hchosen⟩, rfl⟩

/-! ## What every turn keeps holds after the pass -/

/-- Where a pass starts. -/
def start (g : Graph) : Pass := ⟨g.edges, [], []⟩

theorem runPass_induction {g : Graph} (motive : Nat → Pass → Prop)
    (start : motive 0 g.start)
    (turn : ∀ k pass, motive k pass → motive (k + 1) (g.turn pass k)) :
    motive g.edges.length g.runPass := by
  unfold runPass
  generalize g.edges.length = n
  induction n with
  | zero => exact start
  | succ n ih =>
    rw [List.range_succ, List.foldl_append, List.foldl_cons, List.foldl_nil]
    exact turn n _ ih

/-- A property that moves keep holds after the pass. -/
theorem runPass_of_move {g : Graph} (motive : Pass → Prop) (start : motive g.start)
    (move : ∀ pass m e p, motive pass → g.Makes pass m e p → motive (pass.move m)) :
    motive g.runPass := by
  refine runPass_induction (fun _ => motive) start ?_
  intro k pass hpass
  obtain ⟨hturn, -⟩ | ⟨m, e, p, -, hmakes, hturn⟩ := g.turn_eq_or pass k
  · rwa [hturn]
  · rw [hturn]
    exact move pass m e p hpass hmakes

theorem bare_move (pass : Pass) (m : Move) :
    (pass.move m).edges.map Edge.bare = pass.edges.map Edge.bare := by
  rw [Pass.move, map_bare_setLabel, map_bare_setLabel]

/-- A pass keeps the edges up to their labels. -/
theorem bare_runPass (g : Graph) : g.runPass.edges.map Edge.bare = g.edges.map Edge.bare := by
  refine runPass_of_move (fun pass => pass.edges.map Edge.bare = g.edges.map Edge.bare) rfl ?_
  intro pass m _ _ hpass _
  rw [bare_move, hpass]

theorem consistent_relocate (h : g.Consistent) : g.relocate.1.Consistent := by
  show g.exits = exitsOf g.runPass.edges
  rw [exitsOf_eq_of_map_bare_eq g.bare_runPass]
  exact h

/-! ## Labels that a line can state -/

theorem wellFormed_setLabel {es : List Edge} {i : Nat} {label : Option Text}
    (h : ∀ e ∈ es, e.WellFormed) (hlabel : ∀ l ∈ label, '"' ∉ l) :
    ∀ e ∈ setLabel es i label, e.WellFormed := by
  intro e he
  obtain ⟨j, hj⟩ := List.mem_iff_getElem?.1 he
  rw [getElem?_setLabel] at hj
  split at hj
  · obtain ⟨f, hf, rfl⟩ := Option.map_eq_some_iff.1 hj
    obtain ⟨hindent, hsource, harrow, -, hdestination⟩ := h f (List.mem_of_getElem? hf)
    exact ⟨hindent, hsource, harrow, hlabel, hdestination⟩
  · exact h e (List.mem_of_getElem? hj)

/-- What a line can state before a pass, a line can state after it. -/
theorem wellFormed_runPass (h : ∀ e ∈ g.edges, e.WellFormed) :
    ∀ e ∈ g.runPass.edges, e.WellFormed := by
  refine runPass_of_move (fun pass => ∀ e ∈ pass.edges, e.WellFormed) h ?_
  intro pass m e p hpass hmakes
  refine wellFormed_setLabel (wellFormed_setLabel hpass ?_) (by simp)
  rintro l ⟨rfl⟩
  exact (hpass e (List.mem_of_getElem? hmakes.edge)).label m.label hmakes.label

end Graph

end WikiTidy.Diagram
