import Mathlib.Data.List.Perm.Subperm
import WikiTidy.Proofs.Diagram.Rerun

/-!
# Passes one after another

A pass works on the graph that the one before it left. A label that could not move in one pass may
move in a later one, so the moves of all passes are looked at together.

**Theorem (`repeated_moves_settle`).** Over any number of passes an edge gives away one label at
most, takes one at most, and never does both: an edge that gives is the only exit of its source, and
an edge that takes is one exit of several. So there are at most as many moves as edges, one of the
first passes makes no move, and from then on nothing changes.

The invariant (`Ledger`) says of the moves made so far that the edges that gave have no label and
the edges that took have one. An edge without a label has none to give, and an edge with a label
takes no other, so the next move is between edges that no earlier move gave from or gave to.
-/

namespace WikiTidy.Diagram.Graph

/-- The graph after some passes. -/
def after (g : Graph) : Nat → Graph
  | 0 => g
  | n + 1 => (g.after n).relocate.1

/-- The moves of the pass that comes after `n` others. -/
def movesOf (g : Graph) (n : Nat) : List Move := (g.after n).relocate.2

/-- The moves of the first `n` passes, in order. -/
def allMoves (g : Graph) (n : Nat) : List Move := (List.range n).flatMap g.movesOf

variable {g : Graph} {pass : Pass} {m : Move} {e : Edge} {p : Polarity} {edges : List Edge}
  {moves : List Move} {i j k n : Nat}

theorem allMoves_succ (g : Graph) (n : Nat) : g.allMoves (n + 1) = g.allMoves n ++ g.movesOf n := by
  rw [allMoves, List.range_succ, List.flatMap_append]
  simp [allMoves]

/-! ## Lone exits and branches -/

/-- The edge at a place is the only exit of a node. -/
def IsLone (g : Graph) (i : Nat) : Prop := ∃ node, g.exitsAt node = [i]

/-- The edge at a place is one of several exits of a node. -/
def IsBranch (g : Graph) (i : Nat) : Prop :=
  ∃ node, i ∈ g.exitsAt node ∧ 2 ≤ (g.exitsAt node).length

theorem IsLone.edge (h : g.Consistent) (hi : g.IsLone i) :
    ∃ e, g.edges[i]? = some e ∧ g.exitsAt e.source = [i] := by
  obtain ⟨node, hone⟩ := hi
  obtain ⟨e, he, rfl⟩ := (mem_exitsAt_iff h).1 (hone ▸ List.mem_singleton_self i)
  exact ⟨e, he, hone⟩

theorem IsBranch.edge (h : g.Consistent) (hi : g.IsBranch i) :
    ∃ e, g.edges[i]? = some e ∧ 2 ≤ (g.exitsAt e.source).length := by
  obtain ⟨node, hmem, hmany⟩ := hi
  obtain ⟨e, he, rfl⟩ := (mem_exitsAt_iff h).1 hmem
  exact ⟨e, he, hmany⟩

theorem IsLone.ne (h : g.Consistent) (hi : g.IsLone i) (hj : g.IsBranch j) : i ≠ j := by
  rintro rfl
  obtain ⟨e, he, hone⟩ := hi.edge h
  obtain ⟨f, hf, hmany⟩ := hj.edge h
  obtain rfl : e = f := Option.some.inj (he.symm.trans hf)
  rw [hone] at hmany
  exact absurd hmany (by simp)

theorem Makes.isLone (h : g.Consistent) (hbare : pass.edges.map Edge.bare = g.edges.map Edge.bare)
    (hmakes : g.Makes pass m e p) : g.IsLone m.origin := by
  obtain ⟨f, hf, hef⟩ := exists_of_map_bare_eq hbare hmakes.edge
  have hsource : f.source = e.source := (Edge.bare_eq_iff.1 hef).2.2.1.symm
  have hmem : m.origin ∈ g.exitsAt e.source := (mem_exitsAt_iff h).2 ⟨f, hf, hsource⟩
  have hlength : (g.exitsAt e.source).length = 1 :=
    Nat.le_antisymm hmakes.giver.lone (List.length_pos_of_mem hmem)
  obtain ⟨j, hj⟩ := List.length_eq_one_iff.1 hlength
  rw [hj, List.mem_singleton] at hmem
  exact ⟨e.source, hmem ▸ hj⟩

theorem Makes.isBranch (hmakes : g.Makes pass m e p) : g.IsBranch m.target :=
  ⟨e.destination, hmakes.target_mem, hmakes.giver.decision⟩

/-! ## The invariant -/

/-- What the edges show of the moves that were made. -/
structure Ledger (g : Graph) (edges : List Edge) (moves : List Move) : Prop where
  bare : edges.map Edge.bare = g.edges.map Edge.bare
  lone : ∀ m ∈ moves, g.IsLone m.origin
  branch : ∀ m ∈ moves, g.IsBranch m.target
  /-- Edges that gave their label have none. -/
  given : ∀ m ∈ moves, ∃ e, edges[m.origin]? = some e ∧ e.label = none
  /-- Edges that took a label have one. -/
  taken : ∀ m ∈ moves, isUnlabelled edges m.target = false
  origins : (moves.map Move.origin).Nodup
  targets : (moves.map Move.target).Nodup

theorem ledger_nil (g : Graph) : g.Ledger g.edges [] := by
  constructor <;> simp

theorem nodup_map_concat {f : Move → Nat} (h : (moves.map f).Nodup)
    (hnew : ∀ m' ∈ moves, f m' ≠ f m) : ((moves ++ [m]).map f).Nodup := by
  rw [List.map_append, List.map_singleton, List.nodup_append]
  refine ⟨h, List.nodup_singleton _, ?_⟩
  rintro a ha b hb rfl
  obtain ⟨m', hm', rfl⟩ := List.mem_map.1 ha
  exact hnew m' hm' (List.mem_singleton.1 hb)

/-- An edge that gave a label gives none again. -/
theorem Ledger.origin_ne (hl : g.Ledger pass.edges moves) (hmakes : g.Makes pass m e p) :
    ∀ m' ∈ moves, m'.origin ≠ m.origin := by
  intro m' hm' heq
  obtain ⟨f, hf, hnone⟩ := hl.given m' hm'
  rw [heq, hmakes.edge] at hf
  obtain rfl : e = f := Option.some.inj hf
  rw [hmakes.label] at hnone
  cases hnone

/-- An edge that took a label takes none again. -/
theorem Ledger.target_ne (hl : g.Ledger pass.edges moves) (hmakes : g.Makes pass m e p) :
    ∀ m' ∈ moves, m'.target ≠ m.target := by
  intro m' hm' heq
  have hlabelled := hl.taken m' hm'
  rw [heq, hmakes.target_unlabelled] at hlabelled
  cases hlabelled

theorem Ledger.move (h : g.Consistent) (hl : g.Ledger pass.edges moves)
    (hmakes : g.Makes pass m e p) : g.Ledger (pass.move m).edges (moves ++ [m]) where
  bare := (bare_move pass m).trans hl.bare
  lone := List.forall_mem_append.2 ⟨hl.lone, by simpa using hmakes.isLone h hl.bare⟩
  branch := List.forall_mem_append.2 ⟨hl.branch, by simpa using hmakes.isBranch⟩
  given := by
    have hbranch := hmakes.isBranch
    intro m' hm'
    rcases List.mem_append.1 hm' with hm' | hm'
    · obtain ⟨f, hf, hnone⟩ := hl.given m' hm'
      have htarget : m.target ≠ m'.origin := ((hl.lone m' hm').ne h hbranch).symm
      refine ⟨f, ?_, hnone⟩
      rw [getElem?_move, if_neg (hl.origin_ne hmakes m' hm').symm, if_neg htarget, hf]
    · obtain rfl := List.mem_singleton.1 hm'
      refine ⟨{ e with label := none }, ?_, rfl⟩
      rw [getElem?_move, if_pos rfl, hmakes.edge]
      rfl
  taken := by
    have hlone := hmakes.isLone h hl.bare
    intro m' hm'
    rcases List.mem_append.1 hm' with hm' | hm'
    · have hlabelled := hl.taken m' hm'
      rw [isUnlabelled] at hlabelled ⊢
      rwa [getElem?_move, if_neg (hlone.ne h (hl.branch m' hm')),
        if_neg (hl.target_ne hmakes m' hm').symm]
    · obtain rfl := List.mem_singleton.1 hm'
      rw [isUnlabelled, getElem?_move, if_neg (hlone.ne h (hmakes.isBranch)), if_pos rfl]
      cases pass.edges[m'.target]? <;> rfl
  origins := nodup_map_concat hl.origins (hl.origin_ne hmakes)
  targets := nodup_map_concat hl.targets (hl.target_ne hmakes)

/-- A pass enters its moves in the ledger. -/
theorem Ledger.runPass (h : g.Consistent) (hl : g.Ledger g.edges moves) :
    g.Ledger g.runPass.edges (moves ++ g.runPass.moves) := by
  refine runPass_of_move (fun pass => g.Ledger pass.edges (moves ++ pass.moves)) ?_ ?_
  · rwa [start, List.append_nil]
  · intro pass m e p hpass hmakes
    have hmoves : moves ++ (pass.move m).moves = (moves ++ pass.moves) ++ [m] :=
      (List.append_assoc _ _ _).symm
    rw [hmoves]
    exact hpass.move h hmakes

/-! ## All passes -/

theorem consistent_after (h : g.Consistent) (n : Nat) : (g.after n).Consistent := by
  induction n with
  | zero => exact h
  | succ n ih => exact consistent_relocate ih

/-- A pass keeps the exits. -/
theorem exits_after (g : Graph) (n : Nat) : (g.after n).exits = g.exits := by
  induction n with
  | zero => rfl
  | succ n ih => exact ih

theorem ledger_after (h : g.Consistent) (n : Nat) :
    (g.after n).Ledger (g.after n).edges (g.allMoves n) := by
  induction n with
  | zero => exact ledger_nil g
  | succ n ih =>
    rw [allMoves_succ]
    -- The exits of the next graph are the same, so its ledger says the same of the moves.
    obtain ⟨-, hlone, hbranch, hgiven, htaken, horigins, htargets⟩ :=
      ih.runPass (consistent_after h n)
    exact ⟨rfl, hlone, hbranch, hgiven, htaken, horigins, htargets⟩

theorem isLone_of_mem_allMoves (h : g.Consistent) (hm : m ∈ g.allMoves n) : g.IsLone m.origin := by
  obtain ⟨node, hone⟩ := (ledger_after h n).lone m hm
  rw [exitsAt, exits_after] at hone
  exact ⟨node, hone⟩

theorem isBranch_of_mem_allMoves (h : g.Consistent) (hm : m ∈ g.allMoves n) :
    g.IsBranch m.target := by
  obtain ⟨node, hmem, hmany⟩ := (ledger_after h n).branch m hm
  rw [exitsAt, exits_after] at hmem hmany
  exact ⟨node, hmem, hmany⟩

/-- **There are at most as many moves as edges.** -/
theorem length_allMoves_le (h : g.Consistent) (n : Nat) :
    (g.allMoves n).length ≤ g.edges.length := by
  have hsub : (g.allMoves n).map Move.origin ⊆ List.range g.edges.length := by
    intro i hi
    obtain ⟨m, hm, rfl⟩ := List.mem_map.1 hi
    obtain ⟨e, he, -⟩ := (isLone_of_mem_allMoves h hm).edge h
    exact List.mem_range.2 (List.getElem?_eq_some_iff.1 he).1
  have hle := (List.Nodup.subperm (ledger_after h n).origins hsub).length_le
  rwa [List.length_map, List.length_range] at hle

/-! ## The passes come to rest -/

/-- A pass without a move leaves the graph as it is. -/
theorem after_succ_of_movesOf_eq_nil (hnil : g.movesOf n = []) : g.after (n + 1) = g.after n := by
  have hstart := runPass_eq_start (not_makes_of_moves_eq_nil hnil)
  show ({ g.after n with edges := (g.after n).runPass.edges } : Graph) = g.after n
  rw [hstart]
  rfl

theorem after_eq_of_le (hnil : g.movesOf k = []) (hle : k ≤ n) : g.after n = g.after k := by
  induction hle with
  | refl => rfl
  | @step n _ ih =>
    have hmoves : g.movesOf n = [] := by
      rw [movesOf, ih]
      exact hnil
    rw [after_succ_of_movesOf_eq_nil hmoves, ih]

/-- Passes that all make a move make as many moves as there are passes. -/
theorem le_length_allMoves (hne : ∀ k < n, g.movesOf k ≠ []) : n ≤ (g.allMoves n).length := by
  induction n with
  | zero => exact Nat.zero_le _
  | succ n ih =>
    have hpos := List.length_pos_iff.2 (hne n (Nat.lt_succ_self n))
    have hle := ih fun k hk => hne k (Nat.lt_succ_of_lt hk)
    rw [allMoves_succ, List.length_append]
    omega

theorem exists_movesOf_eq_nil (h : g.Consistent) : ∃ k ≤ g.edges.length, g.movesOf k = [] := by
  by_contra hnone
  have hne : ∀ k < g.edges.length + 1, g.movesOf k ≠ [] :=
    fun k hk hnil => hnone ⟨k, Nat.le_of_lt_succ hk, hnil⟩
  have := le_length_allMoves hne
  have := length_allMoves_le h (g.edges.length + 1)
  omega

/-- **Repeated passes.** Over all passes, no edge gives a label twice, none takes a label twice, and
none does both; a label leaves the only exit of a node for one of several exits of another. So the
moves are at most as many as the edges. After at most as many passes a pass makes no move, and from
then on no pass makes a move or changes the graph. -/
theorem repeated_moves_settle (lines : List Text) :
    (∀ n, (((ofLines lines).allMoves n).map Move.origin).Nodup ∧
      (((ofLines lines).allMoves n).map Move.target).Nodup ∧
      (∀ m ∈ (ofLines lines).allMoves n, ∀ m' ∈ (ofLines lines).allMoves n,
        m.origin ≠ m'.target) ∧
      (∀ m ∈ (ofLines lines).allMoves n,
        (∃ e, (ofLines lines).edges[m.origin]? = some e ∧
          (ofLines lines).exitsAt e.source = [m.origin]) ∧
        ∃ e, (ofLines lines).edges[m.target]? = some e ∧
          2 ≤ ((ofLines lines).exitsAt e.source).length) ∧
      ((ofLines lines).allMoves n).length ≤ (ofLines lines).edges.length) ∧
    ∃ k ≤ (ofLines lines).edges.length, ∀ n, k ≤ n →
      (ofLines lines).movesOf n = [] ∧ (ofLines lines).after (n + 1) = (ofLines lines).after k := by
  have h := consistent_ofLines lines
  refine ⟨fun n => ⟨(ledger_after h n).origins, (ledger_after h n).targets, ?_, ?_,
    length_allMoves_le h n⟩, ?_⟩
  · intro m hm m' hm'
    exact (isLone_of_mem_allMoves h hm).ne h (isBranch_of_mem_allMoves h hm')
  · intro m hm
    exact ⟨(isLone_of_mem_allMoves h hm).edge h, (isBranch_of_mem_allMoves h hm).edge h⟩
  · obtain ⟨k, hk, hnil⟩ := exists_movesOf_eq_nil h
    refine ⟨k, hk, fun n hn => ⟨?_, after_eq_of_le hnil (Nat.le_succ_of_le hn)⟩⟩
    rw [movesOf, after_eq_of_le hnil hn]
    exact hnil

end WikiTidy.Diagram.Graph
