import Mathlib.Data.List.Perm.Basic
import WikiTidy.Proofs.Diagram.Pass

/-!
# What a pass keeps

**Theorem (`relocate_conserves_labels`).** A pass over any graph moves labels and does nothing else.
It goes through the edges once, so the edges that give stand in order; no edge takes two labels, and
an edge that has taken one does not give it on. Each move takes a branch label as it is written from
an edge that is at most the only exit of its source, and hands it to an edge without a label among
several exits of the node that the first one enters. So the labels after the pass are those before
it at other edges, and a label that is no branch label stays where it is.

Nothing is asked of the exits here: they may leave an edge out, name one twice, or put it with a
node that it does not leave. Then the two kinds of edges that keep the moves of a consistent graph
apart, lone exits and branches, may overlap. What is left to rely on is the memory of the edges that
took a label, which all have one (`Tally.labelled`).

The moves of a pass are set against what the edges are before each of them (`Transfers`); what one
move keeps is then kept by any number of them, by induction on that relation.
-/

namespace WikiTidy.Diagram

open Text

/-- The edges after a move. -/
def Move.apply (m : Move) (edges : List Edge) : List Edge :=
  setLabel (setLabel edges m.target (some m.label)) m.origin none

namespace Graph

/-- The move is one that a pass may make when the edges are as given. -/
structure Permits (g : Graph) (edges : List Edge) (m : Move) : Prop where
  branch : isBranchLabel (some m.label) = true
  gives : ∃ e, edges[m.origin]? = some e ∧ e.label = some m.label ∧
    (g.exitsAt e.source).length ≤ 1 ∧ 2 ≤ (g.exitsAt e.destination).length ∧
    m.target ∈ g.exitsAt e.destination
  takes : ∃ f, edges[m.target]? = some f ∧ f.label = none

/-- The moves lead from the first edges to the last, and each is permitted when it is made. -/
inductive Transfers (g : Graph) : List Edge → List Move → List Edge → Prop
  | nil (edges : List Edge) : Transfers g edges [] edges
  | cons {edges edges' : List Edge} {m : Move} {moves : List Move} :
      g.Permits edges m → Transfers g (m.apply edges) moves edges' →
      Transfers g edges (m :: moves) edges'

variable {g : Graph} {pass : Pass} {m : Move} {moves : List Move} {e : Edge} {p : Polarity}
  {edges edges' : List Edge} {l : Text} {i n : Nat}

theorem exists_of_isUnlabelled (h : isUnlabelled edges i = true) :
    ∃ f, edges[i]? = some f ∧ f.label = none := by
  unfold isUnlabelled at h
  split at h
  · next f hf => exact ⟨f, hf, by simpa using h⟩
  · cases h

theorem Makes.permits (hmakes : g.Makes pass m e p) : g.Permits pass.edges m where
  branch := by
    obtain ⟨l, hl, hp⟩ := Option.bind_eq_some_iff.1 hmakes.giver.answer
    obtain rfl : l = m.label := Option.some.inj (hl.symm.trans hmakes.label)
    rw [← isSome_polarity?, hp]
    rfl
  gives := ⟨e, hmakes.edge, hmakes.label, hmakes.giver.lone, hmakes.giver.decision,
    hmakes.target_mem⟩
  takes := exists_of_isUnlabelled hmakes.target_unlabelled

/-! ## One move -/

theorem Permits.ne (h : g.Permits edges m) : m.target ≠ m.origin := by
  intro heq
  obtain ⟨e, he, hlabel, -⟩ := h.gives
  obtain ⟨f, hf, hnone⟩ := h.takes
  rw [heq, he] at hf
  obtain rfl : e = f := Option.some.inj hf
  rw [hlabel] at hnone
  cases hnone

theorem map_label_setLabel (edges : List Edge) (i : Nat) (label : Option Text) :
    (setLabel edges i label).map Edge.label = (edges.map Edge.label).set i label := by
  apply List.ext_getElem?
  intro j
  rw [List.getElem?_map, getElem?_setLabel, List.getElem?_set, List.getElem?_map]
  by_cases hij : i = j
  · subst hij
    by_cases hlt : i < edges.length
    · simp [hlt]
    · simp [hlt]
  · simp [hij]

/-- A move changes places between a label and the lack of one. -/
theorem Permits.perm_labels (h : g.Permits edges m) :
    ((m.apply edges).map Edge.label).Perm (edges.map Edge.label) := by
  obtain ⟨e, he, hlabel, -⟩ := h.gives
  obtain ⟨f, hf, hnone⟩ := h.takes
  obtain ⟨ho, rfl⟩ := List.getElem?_eq_some_iff.1 he
  obtain ⟨ht, rfl⟩ := List.getElem?_eq_some_iff.1 hf
  have ht' : m.target < (edges.map Edge.label).length := by simpa using ht
  have ho' : m.origin < (edges.map Edge.label).length := by simpa using ho
  have hswap := List.set_set_perm ht' ho'
  rw [List.getElem_map, List.getElem_map, hlabel, hnone] at hswap
  rwa [Move.apply, map_label_setLabel, map_label_setLabel]

theorem getElem?_apply_of_ne (ho : m.origin ≠ i) (ht : m.target ≠ i) :
    (m.apply edges)[i]? = edges[i]? := by
  rw [Move.apply, getElem?_setLabel, if_neg ho, getElem?_setLabel, if_neg ht]

/-- A move touches no label that is not a branch label. -/
theorem Permits.getElem?_apply (h : g.Permits edges m) (he : edges[i]? = some e)
    (hlabel : e.label = some l) (hother : isBranchLabel (some l) = false) :
    (m.apply edges)[i]? = some e := by
  have horigin : m.origin ≠ i := by
    rintro rfl
    obtain ⟨f, hf, hgiven, -⟩ := h.gives
    obtain rfl : e = f := Option.some.inj (he.symm.trans hf)
    obtain rfl : l = m.label := Option.some.inj (hlabel.symm.trans hgiven)
    rw [h.branch] at hother
    cases hother
  have htarget : m.target ≠ i := by
    rintro rfl
    obtain ⟨f, hf, hnone⟩ := h.takes
    obtain rfl : e = f := Option.some.inj (he.symm.trans hf)
    rw [hlabel] at hnone
    cases hnone
  rw [getElem?_apply_of_ne horigin htarget, he]

/-! ## Any number of moves -/

namespace Transfers

theorem concat (h : g.Transfers edges moves edges') (hm : g.Permits edges' m) :
    g.Transfers edges (moves ++ [m]) (m.apply edges') := by
  induction h with
  | nil edges => exact .cons hm (.nil _)
  | cons hfirst _ ih => exact .cons hfirst (ih hm)

theorem perm_labels (h : g.Transfers edges moves edges') :
    (edges'.map Edge.label).Perm (edges.map Edge.label) := by
  induction h with
  | nil edges => exact .refl _
  | cons hm _ ih => exact ih.trans hm.perm_labels

theorem getElem? (h : g.Transfers edges moves edges') (he : edges[i]? = some e)
    (hlabel : e.label = some l) (hother : isBranchLabel (some l) = false) :
    edges'[i]? = some e := by
  induction h with
  | nil edges => exact he
  | cons hm _ ih => exact ih (hm.getElem?_apply he hlabel hother)

theorem map_bare (h : g.Transfers edges moves edges') :
    edges'.map Edge.bare = edges.map Edge.bare := by
  induction h with
  | nil edges => rfl
  | cons _ _ ih => rw [ih, Move.apply, map_bare_setLabel, map_bare_setLabel]

end Transfers

/-! ## The moves of a pass -/

/-- What a pass has to show after `n` turns. -/
structure Tally (g : Graph) (n : Nat) (pass : Pass) : Prop where
  transfers : g.Transfers g.edges pass.moves pass.edges
  claimed : ∀ m ∈ pass.moves, m.target ∈ pass.claimed
  /-- An edge that took a label keeps one. -/
  labelled : ∀ m ∈ pass.moves, isUnlabelled pass.edges m.target = false
  lt : ∀ m ∈ pass.moves, m.origin < n
  order : pass.moves.Pairwise fun m m' =>
    m.origin < m'.origin ∧ m.target ≠ m'.target ∧ m.target ≠ m'.origin

theorem tally_start (g : Graph) : g.Tally 0 g.start where
  transfers := .nil _
  claimed _ hm := absurd hm List.not_mem_nil
  labelled _ hm := absurd hm List.not_mem_nil
  lt _ hm := absurd hm List.not_mem_nil
  order := .nil

theorem isUnlabelled_move (pass : Pass) (m : Move) (ho : m.origin ≠ i) :
    isUnlabelled (pass.move m).edges i =
      if m.target = i then false else isUnlabelled pass.edges i := by
  rw [isUnlabelled, getElem?_move, if_neg ho]
  by_cases ht : m.target = i
  · rw [if_pos ht, if_pos ht]
    cases pass.edges[i]? <;> rfl
  · rw [if_neg ht, if_neg ht]
    rfl

theorem Tally.move (h : g.Tally n pass) (hmakes : g.Makes pass m e p) (hm : m.origin = n) :
    g.Tally (n + 1) (pass.move m) where
  transfers := h.transfers.concat hmakes.permits
  claimed := by
    intro m' hm'
    rcases List.mem_append.1 hm' with hm' | hm'
    · exact List.mem_cons_of_mem _ (h.claimed m' hm')
    · rw [List.mem_singleton.1 hm']
      exact List.mem_cons_self
  labelled := by
    intro m' hm'
    rcases List.mem_append.1 hm' with hm' | hm'
    · have horigin : m.origin ≠ m'.target := fun heq =>
        hmakes.unclaimed (heq ▸ h.claimed m' hm')
      rw [isUnlabelled_move pass m horigin, h.labelled m' hm', ite_self]
    · rw [List.mem_singleton.1 hm', isUnlabelled_move pass m hmakes.permits.ne.symm, if_pos rfl]
  lt := by
    intro m' hm'
    rcases List.mem_append.1 hm' with hm' | hm'
    · exact Nat.lt_succ_of_lt (h.lt m' hm')
    · rw [List.mem_singleton.1 hm', hm]
      exact Nat.lt_succ_self n
  order := by
    refine List.pairwise_append.2 ⟨h.order, List.pairwise_singleton _ _, ?_⟩
    intro m' hm' m'' hm''
    rw [List.mem_singleton.1 hm'']
    refine ⟨hm ▸ h.lt m' hm', fun heq => ?_, fun heq => hmakes.unclaimed (heq ▸ h.claimed m' hm')⟩
    -- The edge that takes has no label yet, the one that took has one.
    have hlabelled := h.labelled m' hm'
    rw [heq, hmakes.target_unlabelled] at hlabelled
    cases hlabelled

theorem tally_turn (h : g.Tally n pass) : g.Tally (n + 1) (g.turn pass n) := by
  obtain ⟨hturn, -⟩ | ⟨m, e, p, horigin, hmakes, hturn⟩ := g.turn_eq_or pass n
  · rw [hturn]
    exact { h with lt := fun m hm => Nat.lt_succ_of_lt (h.lt m hm) }
  · rw [hturn]
    exact h.move hmakes horigin

theorem tally_runPass (g : Graph) : g.Tally g.edges.length g.runPass := by
  refine runPass_induction g.Tally g.tally_start ?_
  intro k pass h
  exact tally_turn h

/-- A pass puts the labels at other edges. -/
theorem perm_labels_runPass (g : Graph) :
    (g.runPass.edges.map Edge.label).Perm (g.edges.map Edge.label) :=
  (tally_runPass g).transfers.perm_labels

/-- **A pass conserves labels**, whatever the exits of the graph are. The edges that give are met in
order, none takes twice, and none gives on what it took. The moves lead from the edges before the
pass to those after it, each permitted when it is made. The labels are the same at other edges,
those that are no branch labels at the same; and all else about edges, texts and exits is as it
was. -/
theorem relocate_conserves_labels (g : Graph) :
    (g.relocate.2.Pairwise fun m m' =>
      m.origin < m'.origin ∧ m.target ≠ m'.target ∧ m.target ≠ m'.origin) ∧
    g.Transfers g.edges g.relocate.2 g.relocate.1.edges ∧
    (g.relocate.1.edges.map Edge.label).Perm (g.edges.map Edge.label) ∧
    (∀ (i : Nat) (e : Edge) (l : Text), g.edges[i]? = some e → e.label = some l →
      isBranchLabel (some l) = false → g.relocate.1.edges[i]? = some e) ∧
    g.relocate.1.edges.map Edge.bare = g.edges.map Edge.bare ∧
    g.relocate.1.texts = g.texts ∧ g.relocate.1.exits = g.exits := by
  have h := tally_runPass g
  refine ⟨h.order, h.transfers, h.transfers.perm_labels, ?_, h.transfers.map_bare, rfl, rfl⟩
  intro i e l he hlabel hother
  exact h.transfers.getElem? he hlabel hother

/-- A graph whose exits are not those of its edges: the second edge takes the label of the first,
and could hand it back if it were not remembered. -/
def relay : Graph where
  edges := [⟨0, [], "A".toList, "B".toList, "-->".toList, some "yes".toList⟩,
    ⟨1, [], "X".toList, "C".toList, "-->".toList, none⟩,
    ⟨2, [], "B".toList, "C".toList, "-->".toList, some "maybe".toList⟩]
  texts := []
  exits := [("B".toList, [1, 2]), ("C".toList, [2, 0])]

theorem relay_conserves_labels :
    relay.relocate.2 = [⟨0, 1, "yes".toList⟩] ∧
      relay.edges[2]?.bind Edge.label = some "maybe".toList ∧
      relay.relocate.1.edges[2]? = relay.edges[2]? ∧
      (relay.relocate.1.edges.map Edge.label).Perm
        [some "yes".toList, none, some "maybe".toList] := by
  obtain ⟨-, -, hperm, hkept, -⟩ := relocate_conserves_labels relay
  exact ⟨by decide +kernel, by decide +kernel, hkept 2 _ "maybe".toList rfl rfl (by decide +kernel),
    hperm⟩

end Graph

end WikiTidy.Diagram
