import Mathlib.Data.List.Sort
import WikiTidy.Proofs.Diagram.Repeat

/-!
# One decision at a time

A pass serves all decisions of a graph at once, in the order of the edges. What it does at one of
them does not depend on the others.

**Home.** Every edge is at home at one node: an exit of a decision at that decision, any other edge
at the node that it enters. The turn of an edge that enters a node reads labels that are at home
there, changes labels that are at home there, and does neither anywhere else (`labelAt_turn_of_ne`,
`agree_turn`). So the labels at home at a node come of the turns of the edges that enter it, in
their order (`agree_filter`).

**Theorem (`Reindexes.labelAt_runPass`).** If two graphs have the same edges in different orders, and
edges that enter the same node stand in the same order in both, then each edge has the same label
after a pass over either graph.

The choice among exits does not look at their order (`choose_map`), so an exit of a decision may
stand anywhere; and the edges that took a label need not be remembered, since none of them has one
to give.
-/

namespace WikiTidy.Diagram

open Text

/-- The label of the edge at a place. -/
def labelAt (edges : List Edge) (i : Nat) : Option Text := edges[i]?.bind Edge.label

/-- The edge without the place of its line. -/
def Edge.unplaced (e : Edge) : Edge := { e with position := 0 }

theorem Edge.unplaced_eq_iff {e f : Edge} :
    e.unplaced = f.unplaced ↔ e.indent = f.indent ∧ e.source = f.source ∧
      e.destination = f.destination ∧ e.arrow = f.arrow ∧ e.label = f.label := by
  simp [unplaced]

theorem isUnlabelled_eq {edges : List Edge} {i : Nat} {e : Edge} (he : edges[i]? = some e) :
    isUnlabelled edges i = (labelAt edges i).isNone := by
  simp [isUnlabelled, labelAt, he]

/-- A selection of numbers in another order is the same, if it is in order. -/
theorem filter_eq_filter_range {places : List Nat} {n : Nat} {q : Nat → Bool}
    (hperm : places.Perm (List.range n)) (horder : (places.filter q).Pairwise (· < ·)) :
    places.filter q = (List.range n).filter q :=
  (hperm.filter q).eq_of_pairwise (fun _ _ _ _ hab hba => absurd hab (Nat.lt_asymm hba)) horder
    (List.pairwise_lt_range.filter q)

/-! ## The choice in another order -/

section Choice

variable {edges edges' : List Edge} {texts texts' : Table Text Text} {p : Polarity}
  {candidates candidates' : List Nat} {τ : Nat → Nat} {t : Nat}

theorem Leads.map (hperm : (candidates'.map τ).Perm candidates)
    (hinj : ∀ c ∈ candidates', ∀ d ∈ candidates', τ c = τ d → c = d)
    (hscore : ∀ c ∈ candidates', scoreAt edges texts p (τ c) = scoreAt edges' texts' p c)
    (ht : t ∈ candidates') :
    Leads edges texts p candidates (τ t) ↔ Leads edges' texts' p candidates' t := by
  constructor
  · intro h
    have hpos := h.pos
    rw [hscore t ht] at hpos
    refine ⟨ht, hpos, fun c hc hne => ?_⟩
    have hlt := h.lt (τ c) (hperm.subset (List.mem_map_of_mem hc))
      fun heq => hne (hinj c hc t ht heq)
    rwa [hscore c hc, hscore t ht] at hlt
  · intro h
    refine ⟨hperm.subset (List.mem_map_of_mem ht), by rw [hscore t ht]; exact h.pos, ?_⟩
    intro k hk hne
    obtain ⟨c, hc, rfl⟩ := List.mem_map.1 (hperm.symm.subset hk)
    rw [hscore c hc, hscore t ht]
    exact h.lt c hc fun heq => hne (congrArg τ heq)

/-- **The choice does not depend on the order of the candidates.** -/
theorem choose_map (hperm : (candidates'.map τ).Perm candidates) (hnd : candidates.Nodup)
    (hfree : ∀ c ∈ candidates, isUnlabelled edges c = true)
    (hfree' : ∀ c ∈ candidates', isUnlabelled edges' c = true)
    (hscore : ∀ c ∈ candidates', scoreAt edges texts p (τ c) = scoreAt edges' texts' p c) :
    choose edges texts candidates p = (choose edges' texts' candidates' p).map τ := by
  have hnd' : (candidates'.map τ).Nodup := hperm.nodup_iff.2 hnd
  have hinj : ∀ c ∈ candidates', ∀ d ∈ candidates', τ c = τ d → c = d := fun c hc d hd heq =>
    List.inj_on_of_nodup_map hnd' hc hd heq
  apply Option.ext
  intro k
  rw [choose_eq_some_iff hnd hfree, Option.map_eq_some_iff]
  constructor
  · intro h
    rcases h with hone | hleads
    · rw [hone, List.perm_singleton, List.map_eq_singleton_iff] at hperm
      obtain ⟨t, hone', ht⟩ := hperm
      exact ⟨t, (choose_eq_some_iff hnd'.of_map hfree').2 (Or.inl hone'), ht⟩
    · obtain ⟨t, ht, rfl⟩ := List.mem_map.1 (hperm.symm.subset hleads.mem)
      have hleads' := (Leads.map hperm hinj hscore ht).1 hleads
      exact ⟨t, (choose_eq_some_iff hnd'.of_map hfree').2 (Or.inr hleads'), rfl⟩
  · intro h
    obtain ⟨t, hchosen, rfl⟩ := h
    have ht := mem_of_choose hchosen
    rcases (choose_eq_some_iff hnd'.of_map hfree').1 hchosen with hone | hleads
    · rw [hone] at hperm
      exact Or.inl (List.singleton_perm.1 hperm).symm
    · exact Or.inr ((Leads.map hperm hinj hscore ht).2 hleads)

end Choice

namespace Graph

variable {g g' : Graph} {pass pass' : Pass} {e e' f : Edge} {p : Polarity} {node l : Text}
  {τ : Nat → Nat} {i j t : Nat}

/-- The node whose labels the label of the edge is one of. -/
def home (g : Graph) (e : Edge) : Text :=
  if 2 ≤ (g.exitsAt e.source).length then e.source else e.destination

/-- The edge at a place enters the node. -/
def enters (g : Graph) (node : Text) (i : Nat) : Bool :=
  g.edges[i]?.any fun e => e.destination == node

theorem enters_iff :
    g.enters node i = true ↔ ∃ e, g.edges[i]? = some e ∧ e.destination = node := by
  simp [enters, Option.any_eq_true]

/-! ## Turns in any order -/

/-- A state that turns lead to, in whatever order the edges have theirs. -/
structure Reached (g : Graph) (pass : Pass) : Prop where
  bare : pass.edges.map Edge.bare = g.edges.map Edge.bare
  claimed : ∀ i ∈ pass.claimed, g.IsBranch i

theorem reached_start (g : Graph) : g.Reached g.start where
  bare := rfl
  claimed _ hi := absurd hi List.not_mem_nil

theorem Reached.turn (hr : g.Reached pass) (i : Nat) : g.Reached (g.turn pass i) := by
  obtain ⟨hturn, -⟩ | ⟨m, e, p, -, hmakes, hturn⟩ := g.turn_eq_or pass i
  · rwa [hturn]
  · rw [hturn]
    refine ⟨(bare_move pass m).trans hr.bare, fun j hj => ?_⟩
    rcases List.mem_cons.1 hj with rfl | hj
    · exact hmakes.isBranch
    · exact hr.claimed j hj

theorem Reached.foldl (hr : g.Reached pass) (order : List Nat) :
    g.Reached (order.foldl g.turn pass) := by
  induction order generalizing pass with
  | nil => exact hr
  | cons i order ih => exact ih (hr.turn i)

/-- Only labels tell the edges of a pass from those of the graph. -/
theorem Reached.getElem? (hr : g.Reached pass) (he : g.edges[i]? = some e) :
    pass.edges[i]? = some { e with label := labelAt pass.edges i } := by
  obtain ⟨f, hf, hbare⟩ := exists_of_map_bare_eq hr.bare.symm he
  obtain ⟨hposition, hindent, hsource, hdestination, harrow⟩ := Edge.bare_eq_iff.1 hbare
  rw [labelAt, hf]
  cases f
  simp_all

/-- What the turn of the edge at a place moves: the exit that takes its label, and the label. -/
def moveAt (g : Graph) (pass : Pass) (i : Nat) : Option (Nat × Text) :=
  pass.edges[i]?.bind (g.target? pass i)

theorem labelAt_turn (g : Graph) (pass : Pass) (i j : Nat) :
    labelAt (g.turn pass i).edges j =
      match g.moveAt pass i with
      | none => labelAt pass.edges j
      | some (t, l) =>
        if i = j then none
        else if t = j then pass.edges[j]?.map fun _ => l
        else labelAt pass.edges j := by
  rw [turn, moveAt]
  cases pass.edges[i]?.bind (g.target? pass i) with
  | none => rfl
  | some m =>
    obtain ⟨t, l⟩ := m
    have hmove := getElem?_move pass ⟨i, t, l⟩ j
    show ((pass.move ⟨i, t, l⟩).edges[j]?).bind Edge.label =
      if i = j then none
      else if t = j then pass.edges[j]?.map fun _ => l
      else labelAt pass.edges j
    rw [hmove]
    by_cases horigin : i = j
    · simp [horigin]
    · by_cases htarget : t = j
      · cases pass.edges[j]? <;> simp [horigin, htarget]
      · simp [horigin, htarget, labelAt]

/-- A label moves for what the labels at home at its destination are, and for nothing else. -/
theorem moveAt_eq_some_iff (h : g.Consistent) (hr : g.Reached pass) (he : g.edges[i]? = some e) :
    g.moveAt pass i = some (t, l) ↔
      labelAt pass.edges i = some l ∧ (g.exitsAt e.source).length ≤ 1 ∧
        2 ≤ (g.exitsAt e.destination).length ∧
        ∃ p, polarity? l = some p ∧
          choose pass.edges g.texts (g.free pass.edges e.destination) p = some t := by
  rw [moveAt, hr.getElem? he, Option.bind_some, target?_eq_some_iff]
  constructor
  · intro hmove
    obtain ⟨hlabel, -, p, hgiver, hchosen⟩ := hmove
    refine ⟨hlabel, hgiver.lone, hgiver.decision, p, ?_, hchosen⟩
    have hanswer := hgiver.answer
    rwa [hlabel] at hanswer
  · intro hmove
    obtain ⟨hlabel, hlone, hdecision, p, hp, hchosen⟩ := hmove
    refine ⟨hlabel, fun hclaimed => ?_, p, ⟨?_, hlone, hdecision⟩, hchosen⟩
    · obtain ⟨f, hf, hmany⟩ := (hr.claimed i hclaimed).edge h
      obtain rfl : e = f := Option.some.inj (he.symm.trans hf)
      omega
    · show (labelAt pass.edges i).bind polarity? = some p
      rw [hlabel]
      exact hp

theorem home_of_lone (h : (g.exitsAt e.source).length ≤ 1) : g.home e = e.destination :=
  if_neg (by omega)

theorem home_of_exit (hnode : f.source = node) (h : 2 ≤ (g.exitsAt node).length) :
    g.home f = node := by
  rw [home, hnode, if_pos h]

/-- **A turn changes no label that is at home elsewhere.** -/
theorem labelAt_turn_of_ne (h : g.Consistent) (hr : g.Reached pass) (he : g.edges[i]? = some e)
    (hf : g.edges[j]? = some f) (hne : g.home f ≠ e.destination) :
    labelAt (g.turn pass i).edges j = labelAt pass.edges j := by
  rw [labelAt_turn]
  cases hmove : g.moveAt pass i with
  | none => rfl
  | some m =>
    obtain ⟨t, l⟩ := m
    obtain ⟨-, hlone, hdecision, p, -, hchosen⟩ := (moveAt_eq_some_iff h hr he).1 hmove
    have horigin : i ≠ j := by
      intro heq
      subst heq
      obtain rfl : e = f := Option.some.inj (he.symm.trans hf)
      exact hne (home_of_lone hlone)
    have htarget : t ≠ j := by
      intro heq
      subst heq
      have hexit := List.mem_of_mem_filter (mem_of_choose hchosen)
      obtain ⟨f', hf', hsource⟩ := (mem_exitsAt_iff h).1 hexit
      obtain rfl : f = f' := Option.some.inj (hf.symm.trans hf')
      exact hne (home_of_exit hsource hdecision)
    show (if i = j then none else if t = j then _ else _) = _
    rw [if_neg horigin, if_neg htarget]

/-! ## The same edges in another order -/

/-- The edges of `g'` are those of `g` in another order: the one at place `i` has the place `τ i` in
`g`. Nodes have the same texts. -/
structure Reindexes (τ : Nat → Nat) (g g' : Graph) : Prop where
  consistent : g.Consistent
  consistent' : g'.Consistent
  places : ((List.range g'.edges.length).map τ).Perm (List.range g.edges.length)
  edges : ∀ i < g'.edges.length,
    (g.edges[τ i]?).map Edge.unplaced = (g'.edges[i]?).map Edge.unplaced
  texts : ∀ node, textOf g.texts node = textOf g'.texts node

/-- Edges that enter the same node stand in the same order in both graphs. -/
def KeepsOrder (τ : Nat → Nat) (g' : Graph) : Prop :=
  ∀ i j e f, i < j → g'.edges[i]? = some e → g'.edges[j]? = some f →
    e.destination = f.destination → τ i < τ j

/-- The labels at home at the node are the same in both passes. -/
def Agree (τ : Nat → Nat) (g' : Graph) (node : Text) (pass pass' : Pass) : Prop :=
  ∀ i e', g'.edges[i]? = some e' → g'.home e' = node →
    labelAt pass.edges (τ i) = labelAt pass'.edges i

namespace Reindexes

theorem edge (hτ : Reindexes τ g g') (he' : g'.edges[i]? = some e') :
    ∃ e, g.edges[τ i]? = some e ∧ e.unplaced = e'.unplaced := by
  have hmap := hτ.edges i (List.getElem?_eq_some_iff.1 he').1
  rw [he', Option.map_some, Option.map_eq_some_iff] at hmap
  exact hmap

theorem inj (hτ : Reindexes τ g g') (hi : i < g'.edges.length) (hj : j < g'.edges.length)
    (heq : τ i = τ j) : i = j :=
  List.inj_on_of_nodup_map (hτ.places.nodup_iff.2 List.nodup_range) (List.mem_range.2 hi)
    (List.mem_range.2 hj) heq

theorem perm_exitsAt (hτ : Reindexes τ g g') (node : Text) :
    ((g'.exitsAt node).map τ).Perm (g.exitsAt node) := by
  have hlt : ∀ i ∈ g'.exitsAt node, i < g'.edges.length := by
    intro i hi
    obtain ⟨e', he', -⟩ := (mem_exitsAt_iff hτ.consistent').1 hi
    exact (List.getElem?_eq_some_iff.1 he').1
  have hnd : ((g'.exitsAt node).map τ).Nodup :=
    (nodup_exitsAt hτ.consistent').map_on fun i hi j hj => hτ.inj (hlt i hi) (hlt j hj)
  rw [List.perm_ext_iff_of_nodup hnd (nodup_exitsAt hτ.consistent)]
  intro k
  rw [List.mem_map, mem_exitsAt_iff hτ.consistent]
  constructor
  · intro h
    obtain ⟨i, hi, rfl⟩ := h
    obtain ⟨e', he', hsource⟩ := (mem_exitsAt_iff hτ.consistent').1 hi
    obtain ⟨e, he, heq⟩ := hτ.edge he'
    exact ⟨e, he, (Edge.unplaced_eq_iff.1 heq).2.1.trans hsource⟩
  · intro h
    obtain ⟨e, he, hsource⟩ := h
    have hk := List.mem_range.2 (List.getElem?_eq_some_iff.1 he).1
    obtain ⟨i, hi, rfl⟩ := List.mem_map.1 (hτ.places.symm.subset hk)
    obtain ⟨e', he'⟩ : ∃ e', g'.edges[i]? = some e' :=
      ⟨_, List.getElem?_eq_getElem (List.mem_range.1 hi)⟩
    obtain ⟨f, hf, heq⟩ := hτ.edge he'
    obtain rfl : e = f := Option.some.inj (he.symm.trans hf)
    have hsource' : e'.source = node := (Edge.unplaced_eq_iff.1 heq).2.1.symm.trans hsource
    exact ⟨i, (mem_exitsAt_iff hτ.consistent').2 ⟨e', he', hsource'⟩, rfl⟩

theorem length_exitsAt (hτ : Reindexes τ g g') (node : Text) :
    (g.exitsAt node).length = (g'.exitsAt node).length := by
  rw [← (hτ.perm_exitsAt node).length_eq, List.length_map]

theorem home_eq (hτ : Reindexes τ g g') (h : e.unplaced = e'.unplaced) : g.home e = g'.home e' := by
  obtain ⟨-, hsource, hdestination, -⟩ := Edge.unplaced_eq_iff.1 h
  rw [home, home, hτ.length_exitsAt, hsource, hdestination]

theorem refl (h : g.Consistent) : Reindexes id g g where
  consistent := h
  consistent' := h
  places := by rw [List.map_id]
  edges _ _ := rfl
  texts _ := rfl

/-! ## One turn in two graphs -/

section Turn

variable (hτ : Reindexes τ g g') (hr : g.Reached pass) (hr' : g'.Reached pass')
include hτ hr hr'

theorem scoreAt_eq (p : Polarity) (hi : i < g'.edges.length) :
    scoreAt pass.edges g.texts p (τ i) = scoreAt pass'.edges g'.texts p i := by
  obtain ⟨e', he'⟩ : ∃ e', g'.edges[i]? = some e' := ⟨_, List.getElem?_eq_getElem hi⟩
  obtain ⟨e, he, heq⟩ := hτ.edge he'
  have hdestination : e.destination = e'.destination := (Edge.unplaced_eq_iff.1 heq).2.2.1
  rw [scoreAt_eq_of_map_bare_eq hr.bare, scoreAt_eq_of_map_bare_eq hr'.bare]
  simp only [scoreAt, he, he', hdestination, hτ.texts]

/-- The free exits of a decision are the same in both passes, if the labels at home there are. -/
theorem perm_free (hagree : Agree τ g' node pass pass') (hdecision : 2 ≤ (g'.exitsAt node).length) :
    ((g'.free pass'.edges node).map τ).Perm (g.free pass.edges node) := by
  have hsame : ∀ i ∈ g'.exitsAt node,
      isUnlabelled pass'.edges i = isUnlabelled pass.edges (τ i) := by
    intro i hi
    obtain ⟨e', he', hsource⟩ := (mem_exitsAt_iff hτ.consistent').1 hi
    obtain ⟨e, he, -⟩ := hτ.edge he'
    rw [isUnlabelled_eq (hr.getElem? he), isUnlabelled_eq (hr'.getElem? he'),
      hagree i e' he' (home_of_exit hsource hdecision)]
  have hfilter : (g'.free pass'.edges node).map τ =
      ((g'.exitsAt node).map τ).filter (isUnlabelled pass.edges) := by
    rw [free, List.filter_congr hsame, List.filter_map]
    rfl
  rw [hfilter]
  exact (hτ.perm_exitsAt node).filter _

/-- **An edge makes the same move in both graphs**, if the labels at home where it enters are the
same. -/
theorem moveAt_eq (hagree : Agree τ g' node pass pass') (he' : g'.edges[i]? = some e')
    (hnode : e'.destination = node) :
    g.moveAt pass (τ i) = (g'.moveAt pass' i).map fun m => (τ m.1, m.2) := by
  obtain ⟨e, he, heq⟩ := hτ.edge he'
  obtain ⟨-, hsource, hdestination, -⟩ := Edge.unplaced_eq_iff.1 heq
  subst hnode
  apply Option.ext
  intro m
  obtain ⟨k, l⟩ := m
  rw [moveAt_eq_some_iff hτ.consistent hr he, hsource, hdestination, hτ.length_exitsAt,
    hτ.length_exitsAt, Option.map_eq_some_iff]
  have hlabel : (g'.exitsAt e'.source).length ≤ 1 →
      labelAt pass.edges (τ i) = labelAt pass'.edges i :=
    fun hlone => hagree i e' he' (home_of_lone hlone)
  have hchoose (hdecision : 2 ≤ (g'.exitsAt e'.destination).length) (p : Polarity) :
      choose pass.edges g.texts (g.free pass.edges e'.destination) p =
        (choose pass'.edges g'.texts (g'.free pass'.edges e'.destination) p).map τ := by
    refine choose_map (hτ.perm_free hr hr' hagree hdecision) (nodup_free hτ.consistent _)
      isUnlabelled_of_mem_free isUnlabelled_of_mem_free fun c hc => ?_
    obtain ⟨f, hf, -⟩ := (mem_exitsAt_iff hτ.consistent').1 (List.mem_of_mem_filter hc)
    exact hτ.scoreAt_eq hr hr' p (List.getElem?_eq_some_iff.1 hf).1
  constructor
  · intro hmove
    obtain ⟨hl, hlone, hdecision, p, hp, hchosen⟩ := hmove
    rw [hchoose hdecision, Option.map_eq_some_iff] at hchosen
    obtain ⟨t, hchosen, rfl⟩ := hchosen
    exact ⟨(t, l), (moveAt_eq_some_iff hτ.consistent' hr' he').2
      ⟨(hlabel hlone).symm.trans hl, hlone, hdecision, p, hp, hchosen⟩, rfl⟩
  · intro hmove
    obtain ⟨⟨t, l'⟩, hmove, heq⟩ := hmove
    obtain ⟨rfl, rfl⟩ : τ t = k ∧ l' = l := by simpa using heq
    obtain ⟨hl, hlone, hdecision, p, hp, hchosen⟩ :=
      (moveAt_eq_some_iff hτ.consistent' hr' he').1 hmove
    refine ⟨(hlabel hlone).trans hl, hlone, hdecision, p, hp, ?_⟩
    rw [hchoose hdecision, hchosen]
    rfl

theorem agree_turn (hagree : Agree τ g' node pass pass') (he' : g'.edges[i]? = some e')
    (hnode : e'.destination = node) :
    Agree τ g' node (g.turn pass (τ i)) (g'.turn pass' i) := by
  intro j f' hf' hhome
  have hi := (List.getElem?_eq_some_iff.1 he').1
  have hj := (List.getElem?_eq_some_iff.1 hf').1
  have hlabel := hagree j f' hf' hhome
  rw [labelAt_turn, labelAt_turn, hτ.moveAt_eq hr hr' hagree he' hnode]
  cases hmove : g'.moveAt pass' i with
  | none => exact hlabel
  | some m =>
    obtain ⟨t, l⟩ := m
    obtain ⟨-, -, -, p, -, hchosen⟩ := (moveAt_eq_some_iff hτ.consistent' hr' he').1 hmove
    have ht : t < g'.edges.length := by
      have hexit := List.mem_of_mem_filter (mem_of_choose hchosen)
      obtain ⟨f, hf, -⟩ := (mem_exitsAt_iff hτ.consistent').1 hexit
      exact (List.getElem?_eq_some_iff.1 hf).1
    obtain ⟨f, hf, -⟩ := hτ.edge hf'
    have horigin : τ i = τ j ↔ i = j := ⟨hτ.inj hi hj, congrArg τ⟩
    have htarget : τ t = τ j ↔ t = j := ⟨hτ.inj ht hj, congrArg τ⟩
    simp only [Option.map_some, horigin, htarget, hr.getElem? hf, hr'.getElem? hf', hlabel]

end Turn

/-- Turns of edges that enter the node keep the labels at home there the same. -/
theorem agree_foldl (hτ : Reindexes τ g g') (order : List Nat)
    (horder : ∀ i ∈ order, g'.enters node i = true) (hr : g.Reached pass) (hr' : g'.Reached pass')
    (hagree : Agree τ g' node pass pass') :
    Agree τ g' node ((order.map τ).foldl g.turn pass) (order.foldl g'.turn pass') := by
  induction order generalizing pass pass' with
  | nil => exact hagree
  | cons i order ih =>
    rw [List.forall_mem_cons] at horder
    obtain ⟨e', he', hnode⟩ := enters_iff.1 horder.1
    exact ih horder.2 (hr.turn _) (hr'.turn _)
      (hτ.agree_turn hr hr' hagree he' hnode)

end Reindexes

/-! ## Whole passes -/

/-- **The labels at home at a node come of the turns of the edges that enter it.** -/
theorem agree_filter (h : g.Consistent) (node : Text) (order : List Nat)
    (horder : ∀ i ∈ order, i < g.edges.length) (hr : g.Reached pass) (hr' : g.Reached pass')
    (hagree : Agree id g node pass pass') :
    Agree id g node ((order.filter (g.enters node)).foldl g.turn pass)
      (order.foldl g.turn pass') := by
  induction order generalizing pass pass' with
  | nil => exact hagree
  | cons i order ih =>
    rw [List.forall_mem_cons] at horder
    obtain ⟨e, he⟩ : ∃ e, g.edges[i]? = some e := ⟨_, List.getElem?_eq_getElem horder.1⟩
    by_cases henters : g.enters node i = true
    · obtain ⟨f, hf, hnode⟩ := enters_iff.1 henters
      rw [List.filter_cons_of_pos henters]
      exact ih horder.2 (hr.turn i) (hr'.turn i)
        ((Reindexes.refl h).agree_turn hr hr' hagree hf hnode)
    · rw [List.filter_cons_of_neg henters]
      refine ih horder.2 hr (hr'.turn i) fun j f hf hhome => ?_
      have hne : g.home f ≠ e.destination := by
        intro heq
        exact henters (enters_iff.2 ⟨e, he, heq.symm.trans hhome⟩)
      rw [labelAt_turn_of_ne h hr' he hf hne]
      exact hagree j f hf hhome

theorem reached_runPass (g : Graph) : g.Reached g.runPass :=
  g.reached_start.foldl (List.range g.edges.length)

/-- After a pass the labels at home at a node are those that the edges that enter it leave. -/
theorem labelAt_runPass (h : g.Consistent) (he : g.edges[i]? = some e) :
    labelAt g.runPass.edges i =
      labelAt (((List.range g.edges.length).filter (g.enters (g.home e))).foldl g.turn
        g.start).edges i :=
  (agree_filter h (g.home e) (List.range g.edges.length) (fun _ hi => List.mem_range.1 hi)
    g.reached_start g.reached_start (fun _ _ _ _ => rfl) i e he rfl).symm

namespace Reindexes

theorem enters_eq (hτ : Reindexes τ g g') (node : Text) (hi : i < g'.edges.length) :
    g.enters node (τ i) = g'.enters node i := by
  obtain ⟨e', he'⟩ : ∃ e', g'.edges[i]? = some e' := ⟨_, List.getElem?_eq_getElem hi⟩
  obtain ⟨e, he, heq⟩ := hτ.edge he'
  rw [enters, enters, he, he', Option.any_some, Option.any_some, (Edge.unplaced_eq_iff.1 heq).2.2.1]

/-- The edges that enter a node have their turns in the same order. -/
theorem map_filter_enters (hτ : Reindexes τ g g') (horder : KeepsOrder τ g') (node : Text) :
    ((List.range g'.edges.length).filter (g'.enters node)).map τ =
      (List.range g.edges.length).filter (g.enters node) := by
  have hfilter : ((List.range g'.edges.length).filter (g'.enters node)).map τ =
      ((List.range g'.edges.length).map τ).filter (g.enters node) := by
    rw [List.filter_map]
    refine congrArg (List.map τ) (List.filter_congr fun i hi => ?_)
    exact (hτ.enters_eq node (List.mem_range.1 hi)).symm
  have hsorted : (((List.range g'.edges.length).filter (g'.enters node)).map τ).Pairwise
      (· < ·) := by
    rw [List.pairwise_map]
    refine (List.pairwise_lt_range.filter _).imp_of_mem fun hi hj hij => ?_
    obtain ⟨e, he, hnode⟩ := enters_iff.1 (List.mem_filter.1 hi).2
    obtain ⟨f, hf, hnode'⟩ := enters_iff.1 (List.mem_filter.1 hj).2
    exact horder _ _ e f hij he hf (hnode.trans hnode'.symm)
  rw [hfilter] at hsorted ⊢
  exact filter_eq_filter_range hτ.places hsorted

/-- **Each edge has the same label after a pass over either graph**, where edges that enter the same
node keep their order. -/
theorem runPass (hτ : Reindexes τ g g') (horder : KeepsOrder τ g')
    (he' : g'.edges[i]? = some e') :
    ∃ f f', g.runPass.edges[τ i]? = some f ∧ g'.runPass.edges[i]? = some f' ∧
      f.unplaced = f'.unplaced := by
  obtain ⟨e, he, heq⟩ := hτ.edge he'
  have hlabel : labelAt g.runPass.edges (τ i) = labelAt g'.runPass.edges i := by
    have hturns : ∀ k ∈ (List.range g'.edges.length).filter (g'.enters (g'.home e')),
        g'.enters (g'.home e') k = true := fun k hk => (List.mem_filter.1 hk).2
    rw [labelAt_runPass hτ.consistent he, labelAt_runPass hτ.consistent' he', hτ.home_eq heq,
      ← hτ.map_filter_enters horder]
    refine hτ.agree_foldl _ hturns g.reached_start g'.reached_start ?_ i e' he' rfl
    intro j f' hf' _
    obtain ⟨f, hf, hff⟩ := hτ.edge hf'
    show (g.edges[τ j]?).bind Edge.label = (g'.edges[j]?).bind Edge.label
    rw [hf, hf', Option.bind_some, Option.bind_some, (Edge.unplaced_eq_iff.1 hff).2.2.2.2]
  refine ⟨_, _, (reached_runPass g).getElem? he,
    (reached_runPass g').getElem? he', ?_⟩
  obtain ⟨hindent, hsource, hdestination, harrow, -⟩ := Edge.unplaced_eq_iff.1 heq
  exact Edge.unplaced_eq_iff.2 ⟨hindent, hsource, hdestination, harrow, hlabel⟩

end Reindexes

end Graph

end WikiTidy.Diagram
