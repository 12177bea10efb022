import Mathlib.Data.List.Nodup
import WikiTidy.Diagram.Relocate

/-!
# The exits of a node

The exits of a node are the places of the edges that leave it, in order and none twice
(`exitsAt_eq`, `mem_exitsAt_iff`). They do not depend on labels, and neither does the score of an
exit, so both can be looked up in any list of edges that is the same up to labels.
-/

namespace WikiTidy.Diagram

open Text

/-! ## Edges up to their labels -/

/-- The edge without its label. -/
def Edge.bare (e : Edge) : Edge := { e with label := none }

theorem Edge.bare_eq_iff {e f : Edge} :
    e.bare = f.bare ↔ e.position = f.position ∧ e.indent = f.indent ∧ e.source = f.source ∧
      e.destination = f.destination ∧ e.arrow = f.arrow := by
  simp [bare]

variable {es fs : List Edge} {i j : Nat} {label : Option Text}

theorem exists_of_map_bare_eq (h : es.map Edge.bare = fs.map Edge.bare) {e : Edge}
    (he : es[i]? = some e) : ∃ f, fs[i]? = some f ∧ e.bare = f.bare := by
  have hi : (fs.map Edge.bare)[i]? = some e.bare := by rw [← h, List.getElem?_map, he]; rfl
  rw [List.getElem?_map, Option.map_eq_some_iff] at hi
  obtain ⟨f, hf, hbare⟩ := hi
  exact ⟨f, hf, hbare.symm⟩

theorem getElem?_setLabel :
    (setLabel es i label)[j]? =
      if i = j then es[j]?.map fun e => { e with label } else es[j]? := by
  rw [setLabel, List.getElem?_modify]
  split
  · rfl
  · simp

theorem map_bare_setLabel : (setLabel es i label).map Edge.bare = es.map Edge.bare := by
  apply List.ext_getElem?
  intro j
  rw [List.getElem?_map, List.getElem?_map, getElem?_setLabel]
  split
  · cases es[j]? <;> rfl
  · rfl

theorem scoreAt_map_bare (es : List Edge) : scoreAt (es.map Edge.bare) = scoreAt es := by
  funext texts p i
  rw [scoreAt, scoreAt, List.getElem?_map]
  cases es[i]? <;> rfl

/-- Scores are read from names and texts alone, so moving labels keeps them. -/
theorem scoreAt_eq_of_map_bare_eq (h : es.map Edge.bare = fs.map Edge.bare) :
    scoreAt es = scoreAt fs := by
  rw [← scoreAt_map_bare es, h, scoreAt_map_bare]

/-! ## Exits -/

namespace Graph

/-- The exits are those of the edges. -/
def Consistent (g : Graph) : Prop := g.exits = exitsOf g.edges

theorem consistent_ofLines (lines : List Text) : (ofLines lines).Consistent := rfl

theorem getD_get?_exits (pairs : List (Edge × Nat)) (t : Table Text (List Nat)) (node : Text) :
    ((pairs.foldl (fun t (e, i) => t.update e.source fun places => places.getD [] ++ [i]) t).get?
      node).getD [] =
      (t.get? node).getD [] ++ (pairs.filter fun p => p.1.source = node).map Prod.snd := by
  induction pairs generalizing t with
  | nil => simp
  | cons p pairs ih =>
    obtain ⟨e, i⟩ := p
    rw [List.foldl_cons, ih, Table.get?_update]
    by_cases h : e.source = node
    · subst h
      simp
    · simp [h]

variable {g : Graph} {node : Text}

/-- The table of exits lists the places of the edges that leave a node, in order. -/
theorem exitsAt_eq (h : g.Consistent) :
    g.exitsAt node = (g.edges.zipIdx.filter fun p => p.1.source = node).map Prod.snd := by
  rw [exitsAt, h, exitsOf, getD_get?_exits]
  simp [Table.get?]

theorem mem_exitsAt_iff (h : g.Consistent) :
    i ∈ g.exitsAt node ↔ ∃ e, g.edges[i]? = some e ∧ e.source = node := by
  rw [exitsAt_eq h, List.mem_map]
  constructor
  · rintro ⟨⟨e, i⟩, hmem, rfl⟩
    obtain ⟨hmem, hnode⟩ := List.mem_filter.1 hmem
    exact ⟨e, List.mem_zipIdx_iff_getElem?.1 hmem, by simpa using hnode⟩
  · rintro ⟨e, he, hnode⟩
    exact ⟨(e, i), List.mem_filter.2 ⟨List.mem_zipIdx_iff_getElem?.2 he, by simpa using hnode⟩, rfl⟩

theorem nodup_exitsAt (h : g.Consistent) : (g.exitsAt node).Nodup := by
  rw [exitsAt_eq h]
  refine List.Nodup.sublist (List.filter_sublist.map Prod.snd) ?_
  rw [List.zipIdx_map_snd]
  exact List.nodup_range'

theorem exitsOf_map_bare (es : List Edge) : exitsOf (es.map Edge.bare) = exitsOf es := by
  simp only [exitsOf, List.zipIdx_map, List.foldl_map]
  rfl

/-- The exits do not depend on labels. -/
theorem exitsOf_eq_of_map_bare_eq {es fs : List Edge}
    (h : es.map Edge.bare = fs.map Edge.bare) : exitsOf es = exitsOf fs := by
  rw [← exitsOf_map_bare es, h, exitsOf_map_bare]

/-- The exits of a node that have no label. -/
def free (g : Graph) (edges : List Edge) (node : Text) : List Nat :=
  (g.exitsAt node).filter (isUnlabelled edges)

end Graph

end WikiTidy.Diagram
