import WikiTidy.Proofs.Diagram.Decisions
import WikiTidy.Proofs.Table

/-!
# The lines of a diagram in another order

`arrange places lines` puts the lines at the places into the order of the places.

**Theorem (`relocateLabels_arrange`).** Moving the branch labels of lines in another order gives the
moved lines in that order, if two kinds of lines keep their order among themselves: edges that enter
the same node, which compete for its exits, and declarations of the same node, of which the last one
counts.

The edges of the arranged lines are those of the lines in another order (`exists_reindexes`), so a
pass leaves each of them with the same label (`Graph.Reindexes.runPass`), and it is written onto the
line that it came from.
-/

namespace WikiTidy

namespace Diagram

open Text

/-- The lines at the places, in the order of the places. -/
def arrange (places : List Nat) (lines : List Text) : List Text :=
  places.map fun i => lines.getD i []

/-- What the line at a place says. -/
def saidAt (lines : List Text) (i : Nat) : Line := Line.parse (lines.getD i []) i

/-- The edge that the line at a place states. -/
def edgeAt (lines : List Text) (i : Nat) : Option Edge := (saidAt lines i).edge?

/-- The node that the line at a place declares, with its text. -/
def nodeAt (lines : List Text) (i : Nat) : Option (Text × Text) := (saidAt lines i).node?

/-- Among the places, those of edges that enter the same node are in order, and so are those of
declarations of the same node. -/
structure KeepsOrder (places : List Nat) (lines : List Text) : Prop where
  edges : places.Pairwise fun i j =>
    ∀ e ∈ edgeAt lines i, ∀ f ∈ edgeAt lines j, e.destination = f.destination → i < j
  nodes : places.Pairwise fun i j =>
    ∀ d ∈ nodeAt lines i, ∀ d' ∈ nodeAt lines j, d.1 = d'.1 → i < j

variable {places : List Nat} {lines : List Text} {line : Text} {e : Edge} {i n : Nat}

/-! ## What the lines say, place by place -/

theorem parseAll_eq (lines : List Text) :
    Line.parseAll lines = (List.range lines.length).map (saidAt lines) := by
  apply List.ext_getElem
  · simp [Line.parseAll]
  · intro i h₁ h₂
    have hi : i < lines.length := by simpa using h₂
    simp [Line.parseAll, saidAt, List.getElem?_eq_getElem hi]

theorem edges_ofLines (lines : List Text) :
    (Graph.ofLines lines).edges = (List.range lines.length).filterMap (edgeAt lines) := by
  show (Line.parseAll lines).filterMap Line.edge? = _
  rw [parseAll_eq, List.filterMap_map]
  rfl

theorem textOf_ofLines (lines : List Text) (node : Text) :
    Graph.textOf (Graph.ofLines lines).texts node =
      Graph.textOf (Table.ofPairs ((List.range lines.length).filterMap (nodeAt lines))) node := by
  show Graph.textOf (Table.ofPairs ((Line.parseAll lines).filterMap Line.node?)) node = _
  rw [parseAll_eq, List.filterMap_map]
  rfl

theorem edgeAt_eq (lines : List Text) (i : Nat) :
    edgeAt lines i = Edge.parse (lines.getD i []) i := by
  rw [edgeAt, saidAt]
  cases h : Edge.parse (lines.getD i []) i with
  | none => exact edge?_parse_of_none h
  | some e => rw [parse_eq_edge h]; rfl

theorem position_of_edgeAt (h : edgeAt lines i = some e) : e.position = i := by
  rw [edgeAt_eq] at h
  exact (Edge.parse_eq_some_iff.1 h).1

/-- Edges stand in the order of their lines. -/
theorem pairwise_position (lines : List Text) :
    (Graph.ofLines lines).edges.Pairwise fun e f => e.position < f.position := by
  rw [edges_ofLines]
  refine List.pairwise_lt_range.filterMap _ fun i j hij e he f hf => ?_
  rw [position_of_edgeAt he, position_of_edgeAt hf]
  exact Int.ofNat_lt.2 hij

theorem lt_of_position_lt {k m : Nat} {f : Edge}
    (he : (Graph.ofLines lines).edges[k]? = some e) (hf : (Graph.ofLines lines).edges[m]? = some f)
    (h : e.position < f.position) : k < m := by
  obtain ⟨hk, rfl⟩ := List.getElem?_eq_some_iff.1 he
  obtain ⟨hm, rfl⟩ := List.getElem?_eq_some_iff.1 hf
  have hsorted := List.pairwise_iff_getElem.1 (pairwise_position lines)
  by_contra hle
  rcases Nat.lt_or_eq_of_le (Nat.le_of_not_lt hle) with hlt | heq
  · exact absurd h (Int.lt_asymm (hsorted m k hm hk hlt))
  · subst heq
    exact absurd h (Int.lt_irrefl _)

/-- An edge has nothing of its line but the place. -/
theorem parse_eq_map (line : Text) (p q : Int) :
    Edge.parse line q = (Edge.parse line p).map fun e => { e with position := q } := by
  have hplaced : ∀ (r : Int) (e : Edge), e.WellFormed ∧ e.Spells line →
      Edge.parse line r = some { e with position := r } := fun r e h =>
    Edge.parse_eq_some_iff.2 ⟨rfl,
      ⟨h.1.indent, h.1.source, h.1.arrow, h.1.label, h.1.destination⟩, h.2⟩
  cases hp : Edge.parse line p with
  | some e => exact hplaced q e (Edge.parse_eq_some_iff.1 hp).2
  | none =>
    cases hq : Edge.parse line q with
    | none => rfl
    | some e =>
      rw [hplaced p e (Edge.parse_eq_some_iff.1 hq).2] at hp
      cases hp

theorem node?_parse (line : Text) (p q : Int) :
    (Line.parse line q).node? = (Line.parse line p).node? := by
  rw [Line.parse, Line.parse, parse_eq_map line p q]
  cases Edge.parse line p with
  | none => cases declaration? line <;> rfl
  | some e => rfl

/-! ## What the arranged lines say -/

/-- An edge of the arranged lines with the place that its line had before. -/
def comeFrom (places : List Nat) (e : Edge) : Edge :=
  { e with position := (places.getD e.position.toNat 0 : Nat) }

/-- A selection by what is read at each place is the same in another order, if it is in order. -/
theorem filterMap_eq_filterMap_range {α : Type} {f : Nat → Option α}
    (hperm : places.Perm (List.range n))
    (horder : places.Pairwise fun i j => ∀ a ∈ f i, ∀ b ∈ f j, i < j) :
    places.filterMap f = (List.range n).filterMap f := by
  have hfilter : ∀ l : List Nat, l.filterMap f = (l.filter fun i => (f i).isSome).filterMap f := by
    intro l
    rw [List.filterMap_filter]
    refine List.filterMap_congr fun i _ => ?_
    cases f i <;> rfl
  have hsorted : (places.filter fun i => (f i).isSome).Pairwise (· < ·) := by
    refine (horder.filter _).imp_of_mem fun hi hj hij => ?_
    obtain ⟨a, ha⟩ := Option.isSome_iff_exists.1 (List.mem_filter.1 hi).2
    obtain ⟨b, hb⟩ := Option.isSome_iff_exists.1 (List.mem_filter.1 hj).2
    exact hij a ha b hb
  rw [hfilter places, filter_eq_filter_range hperm hsorted, ← hfilter]

/-- A list in another order, by the places that its elements had. -/
theorem exists_reindex {α : Type} [DecidableEq α] {l l' : List α} (hnd : l.Nodup)
    (hperm : l'.Perm l) :
    ∃ τ : Nat → Nat, ((List.range l'.length).map τ).Perm (List.range l.length) ∧
      ∀ i, l[τ i]? = l'[i]? := by
  refine ⟨fun i => (l'[i]?.map l.idxOf).getD l.length, ?_, fun i => ?_⟩
  · have hmap : (List.range l'.length).map (fun i => (l'[i]?.map l.idxOf).getD l.length) =
        l'.map l.idxOf := by
      apply List.ext_getElem
      · simp
      · intro i h₁ h₂
        have hi : i < l'.length := by simpa using h₁
        simp [List.getElem?_eq_getElem hi]
    have hself : l.map l.idxOf = List.range l.length := by
      apply List.ext_getElem
      · simp
      · intro i h₁ h₂
        simp [hnd.idxOf_getElem]
    rw [hmap, ← hself]
    exact hperm.map _
  · cases hi : l'[i]? with
    | none => simp [hi]
    | some a => simpa [hi] using List.getElem?_idxOf (hperm.subset (List.mem_of_getElem? hi))

section Arranged

variable (hperm : places.Perm (List.range lines.length))
include hperm

theorem length_places : places.length = lines.length := by
  rw [hperm.length_eq, List.length_range]

theorem length_arrange : (arrange places lines).length = lines.length := by
  rw [arrange, List.length_map, length_places hperm]

theorem getD_places_lt (hi : i < lines.length) : places.getD i 0 < lines.length := by
  have hi' : i < places.length := by rwa [length_places hperm]
  have hmem := hperm.subset (List.getElem_mem hi')
  simpa [List.getElem?_eq_getElem hi'] using hmem

theorem getElem?_arrange (hi : i < lines.length) :
    (arrange places lines)[i]? = lines[places.getD i 0]? := by
  have hi' : i < places.length := by rwa [length_places hperm]
  have hlt := getD_places_lt hperm hi
  simp only [List.getD_eq_getElem?_getD, List.getElem?_eq_getElem hi', Option.getD_some] at hlt
  simp [arrange, List.getElem?_eq_getElem hi', List.getElem?_eq_getElem hlt]

theorem getD_arrange (hi : i < lines.length) :
    (arrange places lines).getD i [] = lines.getD (places.getD i 0) [] := by
  rw [List.getD_eq_getElem?_getD, getElem?_arrange hperm hi, ← List.getD_eq_getElem?_getD]

theorem filterMap_places {α : Type} {f g : Nat → Option α}
    (h : ∀ i < lines.length, g i = f (places.getD i 0)) :
    (List.range lines.length).filterMap g = places.filterMap f := by
  have hplaces : places = (List.range lines.length).map fun i => places.getD i 0 := by
    apply List.ext_getElem
    · simp [length_places hperm]
    · intro i h₁ h₂
      simp [List.getElem?_eq_getElem h₁]
  conv_rhs => rw [hplaces, List.filterMap_map]
  exact List.filterMap_congr fun i hi => h i (List.mem_range.1 hi)

/-- The edges of the arranged lines are those of the lines in the order of the places. -/
theorem map_comeFrom :
    (Graph.ofLines (arrange places lines)).edges.map (comeFrom places) =
      places.filterMap (edgeAt lines) := by
  rw [edges_ofLines, length_arrange hperm, List.map_filterMap]
  refine filterMap_places hperm fun i hi => ?_
  rw [edgeAt_eq, edgeAt_eq, getD_arrange hperm hi, parse_eq_map _ i (places.getD i 0 : Nat)]
  refine Option.map_congr fun e he => ?_
  rw [comeFrom, (Edge.parse_eq_some_iff.1 he).1]
  rfl

theorem textOf_arrange (horder : KeepsOrder places lines) (node : Text) :
    Graph.textOf (Graph.ofLines lines).texts node =
      Graph.textOf (Graph.ofLines (arrange places lines)).texts node := by
  have hnodes : (List.range lines.length).filterMap (nodeAt (arrange places lines)) =
      places.filterMap (nodeAt lines) := by
    refine filterMap_places hperm fun i hi => ?_
    rw [nodeAt, nodeAt, saidAt, saidAt, getD_arrange hperm hi]
    exact node?_parse _ _ _
  have hpairs : ((List.range lines.length).filterMap (nodeAt lines)).filter (·.1 = node) =
      (places.filterMap (nodeAt lines)).filter (·.1 = node) := by
    rw [List.filter_filterMap, List.filter_filterMap]
    refine (filterMap_eq_filterMap_range hperm (horder.nodes.imp fun hij d hd d' hd' => ?_)).symm
    obtain ⟨hd, hnode⟩ := Option.filter_eq_some_iff.1 hd
    obtain ⟨hd', hnode'⟩ := Option.filter_eq_some_iff.1 hd'
    refine hij d hd d' hd' ?_
    rw [of_decide_eq_true hnode, of_decide_eq_true hnode']
  rw [textOf_ofLines, textOf_ofLines, length_arrange hperm, hnodes, Graph.textOf, Graph.textOf,
    Table.get?_ofPairs, hpairs, ← Table.get?_ofPairs]

/-- Each edge of the arranged lines is an edge of the lines, where the places say. -/
theorem exists_reindexes (horder : KeepsOrder places lines) :
    ∃ τ, Graph.Reindexes τ (Graph.ofLines lines) (Graph.ofLines (arrange places lines)) ∧
      Graph.KeepsOrder τ (Graph.ofLines (arrange places lines)) ∧
      ∀ i, (Graph.ofLines lines).edges[τ i]? =
        ((Graph.ofLines (arrange places lines)).edges[i]?).map (comeFrom places) := by
  have hsorted := pairwise_position lines
  have hedges := map_comeFrom hperm
  have hedgesPerm : ((Graph.ofLines (arrange places lines)).edges.map (comeFrom places)).Perm
      (Graph.ofLines lines).edges := by
    rw [hedges, edges_ofLines]
    exact hperm.filterMap _
  have hnd : (Graph.ofLines lines).edges.Nodup := hsorted.imp fun hlt heq => by simp [heq] at hlt
  have hrivals : ((Graph.ofLines (arrange places lines)).edges.map (comeFrom places)).Pairwise
      fun e f => e.destination = f.destination → e.position < f.position := by
    rw [hedges]
    refine horder.edges.filterMap _ fun i j hij e he f hf hdestination => ?_
    rw [position_of_edgeAt he, position_of_edgeAt hf]
    exact Int.ofNat_lt.2 (hij e he f hf hdestination)
  obtain ⟨τ, hτ, hget⟩ := exists_reindex hnd hedgesPerm
  simp only [List.length_map, List.getElem?_map] at hτ hget
  refine ⟨τ, ⟨rfl, rfl, hτ, fun i _ => ?_, textOf_arrange hperm horder⟩, ?_, hget⟩
  · rw [hget, Option.map_map]
    rfl
  · intro i j e f hij he hf hdestination
    have hi : (Graph.ofLines lines).edges[τ i]? = some (comeFrom places e) := by rw [hget, he]; rfl
    have hj : (Graph.ofLines lines).edges[τ j]? = some (comeFrom places f) := by rw [hget, hf]; rfl
    obtain ⟨hi', rfl⟩ := List.getElem?_eq_some_iff.1 he
    obtain ⟨hj', rfl⟩ := List.getElem?_eq_some_iff.1 hf
    rw [List.pairwise_map] at hrivals
    exact lt_of_position_lt hi hj
      (List.pairwise_iff_getElem.1 hrivals i j hi' hj' hij hdestination)

end Arranged

/-! ## The arranged lines after a pass -/

/-- The line of an edge is written by the edge with its place. -/
theorem Rewrites.getElem?_edge {es : List Edge} {out : List Text} (h : Rewrites n lines es out)
    (hline : lines[i]? = some line) (hparse : Edge.parse line (n + i : Nat) = some e) :
    ∃ e' ∈ es, e'.position = (n + i : Nat) ∧ out[i]? = some e'.render := by
  induction h generalizing i with
  | nil => simp at hline
  | @edge n l ls out d d' es hedge hbare _ _ ih =>
    cases i with
    | zero =>
      refine ⟨d', List.mem_cons_self, ?_, rfl⟩
      rw [(Edge.bare_eq_iff.1 hbare).1]
      exact (Edge.parse_eq_some_iff.1 hedge).1
    | succ i =>
      obtain ⟨e', he', hposition, hout⟩ := ih hline (by rwa [Nat.add_right_comm, Nat.add_assoc])
      exact ⟨e', List.mem_cons_of_mem _ he', by rw [hposition]; congr 1; omega, hout⟩
  | keep hnone _ ih =>
    cases i with
    | zero =>
      obtain rfl := Option.some.inj hline
      rw [Nat.add_zero, hnone] at hparse
      cases hparse
    | succ i =>
      obtain ⟨e', he', hposition, hout⟩ := ih hline (by rwa [Nat.add_right_comm, Nat.add_assoc])
      exact ⟨e', he', by rw [hposition]; congr 1; omega, hout⟩

/-- Edges that are the same but for their places are written the same. -/
theorem render_eq_of_unplaced {e f : Edge} (h : e.unplaced = f.unplaced) : e.render = f.render := by
  obtain ⟨hindent, hsource, hdestination, harrow, hlabel⟩ := Edge.unplaced_eq_iff.1 h
  rw [Edge.render, Edge.render, hindent, hsource, hdestination, harrow, hlabel]

/-- No two edges have the same line, before a pass or after it. -/
theorem eq_of_position {e f : Edge} (he : e ∈ (Graph.ofLines lines).runPass.edges)
    (hf : f ∈ (Graph.ofLines lines).runPass.edges) (h : e.position = f.position) : e = f := by
  have hpositions : (Graph.ofLines lines).runPass.edges.map Edge.position =
      (Graph.ofLines lines).edges.map Edge.position := by
    have hbare := congrArg (List.map Edge.position) (Graph.bare_runPass (Graph.ofLines lines))
    rw [List.map_map, List.map_map] at hbare
    exact hbare
  have hnd : ((Graph.ofLines lines).runPass.edges.map Edge.position).Nodup := by
    rw [hpositions, List.Nodup, List.pairwise_map]
    exact (pairwise_position lines).imp Int.ne_of_lt
  exact List.inj_on_of_nodup_map hnd he hf h

/-- An edge on an arranged line is written as it would be on the line where it was before. -/
theorem render_arrange (hperm : places.Perm (List.range lines.length))
    (horder : KeepsOrder places lines) {f f' : Edge}
    (hf : f ∈ (Graph.ofLines lines).runPass.edges)
    (hf' : f' ∈ (Graph.ofLines (arrange places lines)).runPass.edges)
    (hposition : f.position = (places.getD f'.position.toNat 0 : Nat)) : f'.render = f.render := by
  obtain ⟨τ, hτ, hkeeps, hget⟩ := exists_reindexes hperm horder
  obtain ⟨k, hk⟩ := List.mem_iff_getElem?.1 hf'
  obtain ⟨e', he', hbare'⟩ := exists_of_map_bare_eq (Graph.bare_runPass _) hk
  obtain ⟨d, d', hd, hd', heq⟩ := hτ.runPass hkeeps he'
  obtain rfl : d' = f' := Option.some.inj (hd'.symm.trans hk)
  -- The edge that it corresponds to has the place of `f`, so it is `f`.
  obtain ⟨e, he, hbare⟩ := exists_of_map_bare_eq (Graph.bare_runPass _) hd
  rw [hget, he'] at he
  have hplace : d.position = (places.getD d'.position.toNat 0 : Nat) := by
    rw [(Edge.bare_eq_iff.1 hbare).1, (Edge.bare_eq_iff.1 hbare').1, ← Option.some.inj he]
    rfl
  obtain rfl : d = f := eq_of_position (List.mem_of_getElem? hd) hf (hplace.trans hposition.symm)
  exact (render_eq_of_unplaced heq).symm

/-- **Moving branch labels does not depend on the order of the lines**, as long as edges that enter
the same node keep their order, and declarations of the same node theirs: the lines in another order
become the moved lines in that order. -/
theorem relocateLabels_arrange (hperm : places.Perm (List.range lines.length))
    (horder : KeepsOrder places lines) :
    relocateLabels (arrange places lines) = arrange places (relocateLabels lines) := by
  have hnew := rewrites_relocateLabels (arrange places lines)
  have hold := rewrites_relocateLabels lines
  have hperm' : places.Perm (List.range (relocateLabels lines).length) := by rwa [hold.length_eq]
  apply List.ext_getElem?
  intro i
  by_cases hi : i < lines.length
  · obtain ⟨line, hline⟩ : ∃ line, lines[places.getD i 0]? = some line :=
      ⟨_, List.getElem?_eq_getElem (getD_places_lt hperm hi)⟩
    have hline' := (getElem?_arrange hperm hi).trans hline
    have hplaces := parse_eq_map line (0 + i : Nat) (0 + places.getD i 0 : Nat)
    rw [getElem?_arrange hperm' (by rwa [hold.length_eq])]
    cases hparse : Edge.parse line (0 + i : Nat) with
    | none =>
      rw [hparse] at hplaces
      rw [hnew.getElem?_keep hline' hparse, hold.getElem?_keep hline hplaces]
    | some e =>
      rw [hparse] at hplaces
      obtain ⟨f', hf', hposition', hout'⟩ := hnew.getElem?_edge hline' hparse
      obtain ⟨f, hf, hposition, hout⟩ := hold.getElem?_edge hline hplaces
      rw [hout', hout, render_arrange hperm horder hf hf']
      rw [hposition, hposition', Nat.zero_add, Nat.zero_add, Int.toNat_natCast]
  · have hlength := hnew.length_eq
    rw [length_arrange hperm] at hlength
    rw [List.getElem?_eq_none (by omega), List.getElem?_eq_none]
    rw [length_arrange hperm', hold.length_eq]
    omega

/-- Two labels before one decision. -/
def crossroads : List Text :=
  ["graph TD", "A -->|\"yes\"| D", "B -->|\"true\"| D", "D --> X", "D --> Y",
    "X[\"use it\"]"].map String.toList

theorem crossroads_arranged :
    [5, 4, 1, 0, 3, 2].Perm (List.range crossroads.length) ∧
      KeepsOrder [5, 4, 1, 0, 3, 2] crossroads ∧
      relocateLabels (arrange [5, 4, 1, 0, 3, 2] crossroads) =
        arrange [5, 4, 1, 0, 3, 2] (relocateLabels crossroads) := by
  have hperm : [5, 4, 1, 0, 3, 2].Perm (List.range crossroads.length) := by decide +kernel
  have horder : KeepsOrder [5, 4, 1, 0, 3, 2] crossroads :=
    ⟨by decide +kernel, by decide +kernel⟩
  exact ⟨hperm, horder, relocateLabels_arrange hperm horder⟩

/-- The label that comes first takes the exit that fits both. -/
example : (relocateLabels crossroads).map String.ofList =
      ["graph TD", "A --> D", "B --> D", "D -->|\"yes\"| X", "D -->|\"true\"| Y",
        "X[\"use it\"]"] ∧
    (relocateLabels (arrange [0, 2, 1, 3, 4, 5] crossroads)).map String.ofList =
      ["graph TD", "B --> D", "A --> D", "D -->|\"true\"| X", "D -->|\"yes\"| Y",
        "X[\"use it\"]"] := by
  decide +kernel

end Diagram

end WikiTidy
