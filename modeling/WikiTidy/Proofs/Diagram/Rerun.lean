import WikiTidy.Proofs.Diagram.Reread

/-!
# A second pass

One pass does not always leave a diagram that a second pass keeps. A label that cannot tell the
exits of its decision apart stays where it is; a label that comes later may then take all exits but
one, and the second pass moves the first label to the exit that is left.

**Theorem (`rerun_keeps_iff_no_stranded`).** This is the only way: a second pass makes a move, and
changes a line, exactly when the first one leaves an edge *stranded*, with a label to give away and
a single exit free to take it.

The invariant (`Settled`) is that every label passed by is *undecided* at its decision: at most one
exit is free there, or none of them leads. A move takes one exit away. It cannot make another exit
lead: for the same answer none led before, so the move was for the opposite answer, and the exit
that it took was the least fit of all for this one.
-/

namespace WikiTidy.Diagram

open Text

/-! ## Undecided labels -/

section Undecided

variable {edges : List Edge} {texts : Table Text Text} {p q : Polarity} {candidates : List Nat}
  {t : Nat}

theorem scoreAt_of_ne (h : p ≠ q) (i : Nat) :
    scoreAt edges texts p i = -scoreAt edges texts q i := by
  have hscore (text : Text) : score text p = -score text q := by
    cases p <;> cases q
    · exact absurd rfl h
    · rw [score_negative]
      omega
    · rw [score_negative]
    · exact absurd rfl h
  unfold scoreAt
  split
  · exact hscore _
  · rfl

/-- Of several candidates, none leads. -/
def Undecided (edges : List Edge) (texts : Table Text Text) (p : Polarity)
    (candidates : List Nat) : Prop :=
  candidates.length ≤ 1 ∨ ∀ t, ¬ Leads edges texts p candidates t

theorem Undecided.filter_ne (h : Undecided edges texts p candidates)
    (ht : candidates = [t] ∨ Leads edges texts q candidates t) :
    Undecided edges texts p (candidates.filter (· ≠ t)) := by
  have hlength := List.length_filter_le (· ≠ t) candidates
  rcases h with hfew | hnone
  · exact Or.inl (by omega)
  rcases ht with hone | hleads
  · have : candidates.length = 1 := by rw [hone]; rfl
    exact Or.inl (by omega)
  refine Or.inr ?_
  intro u hu
  have hpq : p ≠ q := by
    rintro rfl
    exact hnone t hleads
  -- The exit taken has a negative score, so the leader of the others led before.
  refine hnone u ⟨List.mem_of_mem_filter hu.mem, hu.pos, fun c hc hne => ?_⟩
  by_cases hct : c = t
  · have := hleads.pos
    have := hu.pos
    rw [hct, scoreAt_of_ne hpq]
    omega
  · exact hu.lt c (List.mem_filter.2 ⟨hc, by simpa using hct⟩) hne

end Undecided

namespace Graph

variable {g : Graph} {pass : Pass} {m : Move} {e : Edge} {p : Polarity} {node : Text} {i k : Nat}

/-! ## Givers and takers -/

theorem nodup_free (h : g.Consistent) (edges : List Edge) : (g.free edges node).Nodup :=
  (nodup_exitsAt h).filter _

theorem Makes.taken (h : g.Consistent) (hmakes : g.Makes pass m e p) :
    g.free pass.edges e.destination = [m.target] ∨
      Leads pass.edges g.texts p (g.free pass.edges e.destination) m.target :=
  (choose_eq_some_iff (nodup_free h _) isUnlabelled_of_mem_free).1 hmakes.chosen

theorem source_of_mem_exitsAt (h : g.Consistent)
    (hbare : pass.edges.map Edge.bare = g.edges.map Edge.bare) (hi : i ∈ g.exitsAt node)
    (he : pass.edges[i]? = some e) : e.source = node := by
  obtain ⟨f, hf, hfe⟩ := exists_of_map_bare_eq hbare he
  obtain ⟨f', hf', hnode⟩ := (mem_exitsAt_iff h).1 hi
  obtain rfl : f = f' := Option.some.inj (hf.symm.trans hf')
  rw [(Edge.bare_eq_iff.1 hfe).2.2.1, hnode]

/-- The only exit of its source takes no label. -/
theorem Makes.target_ne (h : g.Consistent)
    (hbare : pass.edges.map Edge.bare = g.edges.map Edge.bare) (hmakes : g.Makes pass m e p)
    {f : Edge} (hf : pass.edges[i]? = some f) (hlone : (g.exitsAt f.source).length ≤ 1) :
    m.target ≠ i := by
  rintro rfl
  have hsource := source_of_mem_exitsAt h hbare (hmakes.target_mem) hf
  have := hmakes.giver.decision
  rw [hsource] at hlone
  omega

/-- A move takes its target from the exits that are free, at every decision. -/
theorem free_move (h : g.Consistent)
    (hbare : pass.edges.map Edge.bare = g.edges.map Edge.bare) (hmakes : g.Makes pass m e p)
    (hdecision : 2 ≤ (g.exitsAt node).length) :
    g.free (pass.move m).edges node = (g.free pass.edges node).filter (· ≠ m.target) := by
  unfold free
  rw [List.filter_filter]
  refine List.filter_congr fun j hj => ?_
  have horigin : m.origin ≠ j := by
    rintro rfl
    have hsource := source_of_mem_exitsAt h hbare hj hmakes.edge
    have := hmakes.giver.lone
    rw [hsource] at this
    omega
  rw [isUnlabelled, getElem?_move, if_neg horigin]
  by_cases htarget : m.target = j
  · subst htarget
    cases pass.edges[m.target]? <;> simp
  · have hne : j ≠ m.target := fun hj => htarget hj.symm
    simp [isUnlabelled, htarget, hne]

/-! ## The invariant -/

/-- Where a pass stands after `k` turns: the labels that were passed by are undecided. -/
structure Settled (g : Graph) (k : Nat) (pass : Pass) : Prop where
  bare : pass.edges.map Edge.bare = g.edges.map Edge.bare
  /-- Only exits of decisions have taken labels. -/
  claimed : ∀ i ∈ pass.claimed, ∃ node, i ∈ g.exitsAt node ∧ 2 ≤ (g.exitsAt node).length
  undecided : ∀ i < k, ∀ e p, pass.edges[i]? = some e → g.Giver e p →
    Undecided g.edges g.texts p (g.free pass.edges e.destination)

/-- A label that its turn leaves where it is is undecided. -/
theorem Settled.undecided_of_stay (h : g.Consistent) (hset : g.Settled k pass)
    (hstay : ∀ m e p, m.origin = k → ¬ g.Makes pass m e p) (he : pass.edges[k]? = some e)
    (hgiver : g.Giver e p) :
    Undecided g.edges g.texts p (g.free pass.edges e.destination) := by
  have hunclaimed : k ∉ pass.claimed := by
    intro hk
    obtain ⟨node, hmem, hdecision⟩ := hset.claimed k hk
    have hsource := source_of_mem_exitsAt h hset.bare hmem he
    have := hgiver.lone
    rw [hsource] at this
    omega
  obtain ⟨l, hl, -⟩ := Option.bind_eq_some_iff.1 hgiver.answer
  refine Or.inr fun t ht => hstay ⟨k, t, l⟩ e p rfl ⟨he, hl, hunclaimed, hgiver, ?_⟩
  exact (choose_eq_some_iff (nodup_free h _) isUnlabelled_of_mem_free).2
    (Or.inr (ht.of_map_bare_eq hset.bare.symm))

/-- A label that is undecided before a move is so after it. -/
theorem Settled.undecided_of_move (h : g.Consistent) (hset : g.Settled k pass)
    (hmakes : g.Makes pass m e p) (hi : i < k) {f : Edge} {q : Polarity}
    (hf : pass.edges[i]? = some f) (hgiver : g.Giver f q) :
    Undecided g.edges g.texts q (g.free (pass.move m).edges f.destination) := by
  have hbefore := hset.undecided i hi f q hf hgiver
  rw [free_move h hset.bare hmakes hgiver.decision]
  by_cases htarget : m.target ∈ g.free pass.edges f.destination
  · have hsame : f.destination = e.destination := by
      obtain ⟨a, ha, hfa⟩ := (mem_exitsAt_iff h).1 (List.mem_of_mem_filter htarget)
      obtain ⟨b, hb, heb⟩ := (mem_exitsAt_iff h).1 (hmakes.target_mem)
      obtain rfl : a = b := Option.some.inj (ha.symm.trans hb)
      rw [← hfa, heb]
    rw [hsame] at hbefore ⊢
    exact hbefore.filter_ne ((hmakes.taken h).imp_right fun ht => ht.of_map_bare_eq hset.bare)
  · have hself : (g.free pass.edges f.destination).filter (· ≠ m.target) =
        g.free pass.edges f.destination := by
      rw [List.filter_eq_self]
      intro c hc
      have hne : c ≠ m.target := by
        rintro rfl
        exact htarget hc
      simpa using hne
    rwa [hself]

theorem settled_turn (h : g.Consistent) (hset : g.Settled k pass) :
    g.Settled (k + 1) (g.turn pass k) := by
  obtain ⟨hturn, hstay⟩ | ⟨m, e, p, rfl, hmakes, hturn⟩ := g.turn_eq_or pass k
  · rw [hturn]
    refine ⟨hset.bare, hset.claimed, fun i hi e p he hgiver => ?_⟩
    by_cases hik : i = k
    · subst hik
      exact hset.undecided_of_stay h hstay he hgiver
    · exact hset.undecided i (by omega) e p he hgiver
  · rw [hturn]
    refine ⟨(bare_move pass m).trans hset.bare, ?_, fun i hi f q hf hgiver => ?_⟩
    · intro i hi
      rcases List.mem_cons.1 hi with rfl | hi
      · exact ⟨e.destination, hmakes.target_mem, hmakes.giver.decision⟩
      · exact hset.claimed i hi
    · rw [getElem?_move] at hf
      split at hf
      · -- The edge that gave its label away has none to give.
        obtain ⟨f₀, -, rfl⟩ := Option.map_eq_some_iff.1 hf
        cases hgiver.answer
      · next horigin =>
        split at hf
        · next htarget =>
          obtain ⟨f₀, hf₀, rfl⟩ := Option.map_eq_some_iff.1 hf
          exact absurd htarget (hmakes.target_ne h hset.bare hf₀ hgiver.lone)
        · exact hset.undecided_of_move h hmakes (by omega) hf hgiver

theorem settled_start (g : Graph) : g.Settled 0 g.start where
  bare := rfl
  claimed _ hi := absurd hi List.not_mem_nil
  undecided i hi := absurd hi (Nat.not_lt_zero i)

theorem settled_runPass (h : g.Consistent) : g.Settled g.edges.length g.runPass := by
  refine runPass_induction g.Settled g.settled_start ?_
  intro k pass hset
  exact settled_turn h hset

/-! ## The edges that are left stranded -/

/-- The edge has a label to give away, and one exit at its decision is free. -/
def Stranded (g : Graph) (e : Edge) : Prop :=
  (∃ p, g.Giver e p) ∧ (g.free g.edges e.destination).length = 1

theorem runPass_eq_start (h : ∀ m e p, ¬ g.Makes g.start m e p) : g.runPass = g.start := by
  refine runPass_induction (fun _ pass => pass = g.start) rfl ?_
  rintro k pass rfl
  obtain ⟨hturn, -⟩ | ⟨m, e, p, -, hmakes, -⟩ := g.turn_eq_or g.start k
  · exact hturn
  · exact absurd hmakes (h m e p)

theorem not_makes_of_moves_eq_nil (hmoves : g.runPass.moves = []) :
    ∀ m e p, ¬ g.Makes g.start m e p := by
  have hrun : g.runPass.moves = [] → g.runPass = g.start ∧
      ∀ m e p, m.origin < g.edges.length → ¬ g.Makes g.start m e p := by
    refine runPass_induction (fun k pass => pass.moves = [] → pass = g.start ∧
      ∀ m e p, m.origin < k → ¬ g.Makes g.start m e p)
      (fun _ => ⟨rfl, fun m e p hm => absurd hm (Nat.not_lt_zero _)⟩) ?_
    intro k pass ih hmoves
    obtain ⟨hturn, hstay⟩ | ⟨m, e, p, -, -, hturn⟩ := g.turn_eq_or pass k
    · rw [hturn] at hmoves ⊢
      obtain ⟨rfl, hbefore⟩ := ih hmoves
      refine ⟨rfl, fun m e p hm => ?_⟩
      by_cases hmk : m.origin = k
      · exact hstay m e p hmk
      · exact hbefore m e p (by omega)
    · rw [hturn] at hmoves
      exact absurd hmoves (by simp [Pass.move])
  intro m e p hmakes
  have horigin : m.origin < g.edges.length := (List.getElem?_eq_some_iff.1 hmakes.edge).1
  exact (hrun hmoves).2 m e p horigin hmakes

/-- A pass makes no move exactly when none can be made at its start. -/
theorem moves_eq_nil_iff : g.relocate.2 = [] ↔ ∀ m e p, ¬ g.Makes g.start m e p := by
  constructor
  · exact not_makes_of_moves_eq_nil
  · intro h
    show g.runPass.moves = []
    rw [runPass_eq_start h]
    rfl

/-- Some edge has given its label away, and will get no other. -/
def HasGiven (g : Graph) (pass : Pass) : Prop :=
  ∃ (i : Nat) (e e' : Edge), g.edges[i]? = some e ∧ pass.edges[i]? = some e' ∧ e.label ≠ none ∧
    e'.label = none ∧ (g.exitsAt e'.source).length ≤ 1

theorem hasGiven_of_first (hmakes : g.Makes g.start m e p) : g.HasGiven (g.start.move m) := by
  refine ⟨m.origin, e, { e with label := none }, hmakes.edge, ?_, ?_, rfl, hmakes.giver.lone⟩
  · rw [getElem?_move, if_pos rfl, hmakes.edge]
    rfl
  · rw [hmakes.label]
    exact Option.some_ne_none _

theorem HasGiven.move (h : g.Consistent) (hbare : pass.edges.map Edge.bare = g.edges.map Edge.bare)
    (hgiven : g.HasGiven pass) (hmakes : g.Makes pass m e p) : g.HasGiven (pass.move m) := by
  obtain ⟨i, f, f', hf, hf', hlabel, hnone, hlone⟩ := hgiven
  refine ⟨i, f, f', hf, ?_, hlabel, hnone, hlone⟩
  have horigin : m.origin ≠ i := by
    rintro rfl
    obtain rfl : e = f' := Option.some.inj (hmakes.edge.symm.trans hf')
    rw [hmakes.label] at hnone
    cases hnone
  rw [getElem?_move, if_neg horigin, if_neg (hmakes.target_ne h hbare hf' hlone), hf']

theorem runPass_eq_start_or_hasGiven (h : g.Consistent) :
    g.runPass = g.start ∨ g.HasGiven g.runPass := by
  suffices hrun : g.runPass.edges.map Edge.bare = g.edges.map Edge.bare ∧
      (g.runPass = g.start ∨ g.HasGiven g.runPass) from hrun.2
  refine runPass_of_move (fun pass => pass.edges.map Edge.bare = g.edges.map Edge.bare ∧
    (pass = g.start ∨ g.HasGiven pass)) ⟨rfl, Or.inl rfl⟩ ?_
  rintro pass m e p ⟨hbare, hpass⟩ hmakes
  refine ⟨(bare_move pass m).trans hbare, Or.inr ?_⟩
  rcases hpass with rfl | hgiven
  · exact hasGiven_of_first hmakes
  · exact hgiven.move h hbare hmakes

/-- A pass that keeps every edge makes no move. -/
theorem moves_eq_nil_of_edges_eq (h : g.Consistent) (hedges : g.runPass.edges = g.edges) :
    g.relocate.2 = [] := by
  rcases runPass_eq_start_or_hasGiven h with hstart | ⟨i, e, e', he, he', hlabel, hnone, -⟩
  · show g.runPass.moves = []
    rw [hstart]
    rfl
  · rw [hedges, he] at he'
    obtain rfl : e = e' := Option.some.inj he'
    exact absurd hnone hlabel

theorem exists_makes_of_stranded (h : g.Consistent) (he : e ∈ g.edges) (hstranded : g.Stranded e) :
    ∃ m p, g.Makes g.start m e p := by
  obtain ⟨⟨p, hgiver⟩, hone⟩ := hstranded
  obtain ⟨i, hi⟩ := List.mem_iff_getElem?.1 he
  obtain ⟨t, ht⟩ := List.length_eq_one_iff.1 hone
  obtain ⟨l, hl, -⟩ := Option.bind_eq_some_iff.1 hgiver.answer
  refine ⟨⟨i, t, l⟩, p, hi, hl, List.not_mem_nil, hgiver, ?_⟩
  exact (choose_eq_some_iff (nodup_free h _) isUnlabelled_of_mem_free).2 (Or.inl ht)

/-- A label that could move after a pass was undecided in it, so one exit is left to it. -/
theorem stranded_of_makes (h : g.Consistent)
    (hmakes : g.relocate.1.Makes g.relocate.1.start m e p) : g.relocate.1.Stranded e := by
  refine ⟨⟨p, hmakes.giver⟩, ?_⟩
  have hbare : g.relocate.1.edges.map Edge.bare = g.edges.map Edge.bare := bare_runPass g
  have horigin : m.origin < g.edges.length := by
    have hlength : g.relocate.1.edges.length = g.edges.length := by
      simpa using congrArg List.length hbare
    rw [← hlength]
    exact (List.getElem?_eq_some_iff.1 hmakes.edge).1
  have hgiver : g.Giver e p := ⟨hmakes.giver.answer, hmakes.giver.lone, hmakes.giver.decision⟩
  have hundecided : Undecided g.edges g.texts p
      (g.relocate.1.free g.relocate.1.edges e.destination) :=
    (settled_runPass h).undecided m.origin horigin e p hmakes.edge hgiver
  rcases hmakes.taken (consistent_relocate h) with hone | hleads
  · exact List.length_eq_one_iff.2 ⟨_, hone⟩
  rcases hundecided with hfew | hnobody
  · have hpos : 0 < (g.relocate.1.free g.relocate.1.edges e.destination).length :=
      List.length_pos_of_mem hleads.mem
    omega
  · exact absurd (hleads.of_map_bare_eq hbare) (hnobody m.target)

/-- After a pass, another makes no move exactly when no edge is stranded. -/
theorem second_moves_eq_nil_iff (h : g.Consistent) :
    g.relocate.1.relocate.2 = [] ↔ ∀ e ∈ g.relocate.1.edges, ¬ g.relocate.1.Stranded e := by
  rw [moves_eq_nil_iff]
  constructor
  · intro hnone e he hstranded
    obtain ⟨m, p, hmakes⟩ := exists_makes_of_stranded (consistent_relocate h) he hstranded
    exact hnone m e p hmakes
  · intro hnone m e p hmakes
    exact hnone e (List.mem_of_getElem? hmakes.edge) (stranded_of_makes h hmakes)

end Graph

/-! ## A second pass over lines -/

theorem rerun_eq_iff_moves_eq_nil (lines : List Text) :
    relocateLabels (relocateLabels lines) = relocateLabels lines ↔
      (Graph.ofLines lines).relocate.1.relocate.2 = [] := by
  have hread := ofLines_relocateLabels lines
  have hconsistent := Graph.consistent_relocate (Graph.consistent_ofLines lines)
  constructor
  · intro h
    have hagain := ofLines_relocateLabels (relocateLabels lines)
    rw [h, hread] at hagain
    exact Graph.moves_eq_nil_of_edges_eq hconsistent (congrArg Graph.edges hagain).symm
  · intro h
    have hstart := Graph.runPass_eq_start (Graph.moves_eq_nil_iff.1 h)
    have hkeep := (rewrites_relocateLabels lines).again.writeEdges_eq [] rfl
    rw [relocateLabels, hread]
    show writeEdges _ (Graph.runPass _).edges = _
    rw [hstart]
    exact hkeep

/-- A second pass keeps every line, and makes no move, exactly when the first pass leaves no edge
stranded. -/
theorem rerun_keeps_iff_no_stranded (lines : List Text) :
    (relocateLabels (relocateLabels lines) = relocateLabels lines ↔
        ∀ e ∈ (Graph.ofLines lines).relocate.1.edges,
          ¬ (Graph.ofLines lines).relocate.1.Stranded e) ∧
      ((Graph.ofLines lines).relocate.1.relocate.2 = [] ↔
        ∀ e ∈ (Graph.ofLines lines).relocate.1.edges,
          ¬ (Graph.ofLines lines).relocate.1.Stranded e) := by
  have hmoves := Graph.second_moves_eq_nil_iff (Graph.consistent_ofLines lines)
  exact ⟨(rerun_eq_iff_moves_eq_nil lines).trans hmoves, hmoves⟩

/-- Two answers enter one decision. The first fits neither exit, the second takes one of them. -/
def crossing : List Text :=
  ["X -->|\"yes\"| D", "Y -->|\"no\"| D", "D --> a", "D --> fail"].map String.toList

/-- The second pass moves the label that the first one left. -/
theorem crossing_rerun_ne : relocateLabels (relocateLabels crossing) ≠ relocateLabels crossing := by
  decide +kernel

end WikiTidy.Diagram
