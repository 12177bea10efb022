import WikiTidy.Diagram.Graph
import WikiTidy.Proofs.Diagram.Pass

/-!
# Reading a rewritten diagram again

**Theorem (`relocateLabels_states_relocation`).** The lines that a pass over a diagram writes
state the graph that the pass ends with: its edges, its texts, its exits. There are as many lines as
before, and every line that states no edge stays as it is, where it is.

`Rewrites` relates the lines of a diagram, edges that are its own up to labels, and the lines that
come of writing these edges. Writing one edge touches its own line only, so `writeEdges` yields
related lines (`rewrites_writeEdges`); and a line that was rewritten is read as the edge that was
written, so the edges can be read off the related lines (`Rewrites.edges`).
-/

namespace WikiTidy.Diagram

open Text

/-! ## Lines from a place on -/

/-- What the lines say if the first has the place `n`. -/
def parseFrom (n : Nat) (lines : List Text) : List Line :=
  (lines.zipIdx n).map fun (line, i) => Line.parse line i

theorem parseFrom_cons (n : Nat) (l : Text) (ls : List Text) :
    parseFrom n (l :: ls) = Line.parse l n :: parseFrom (n + 1) ls := rfl

/-- The edges that the lines state. -/
def edgesFrom (n : Nat) (lines : List Text) : List Edge := (parseFrom n lines).filterMap Line.edge?

/-- The nodes that the lines declare. -/
def nodesFrom (n : Nat) (lines : List Text) : List (Text × Text) :=
  (parseFrom n lines).filterMap Line.node?

variable {n : Nat} {l : Text} {ls lines out : List Text} {e : Edge} {es : List Edge}

theorem parse_eq_edge (h : Edge.parse l n = some e) : Line.parse l n = .edge e := by
  rw [Line.parse, h]

theorem edgesFrom_edge (h : Edge.parse l n = some e) :
    edgesFrom n (l :: ls) = e :: edgesFrom (n + 1) ls := by
  rw [edgesFrom, parseFrom_cons, parse_eq_edge h]
  rfl

theorem nodesFrom_edge (h : Edge.parse l n = some e) :
    nodesFrom n (l :: ls) = nodesFrom (n + 1) ls := by
  rw [nodesFrom, parseFrom_cons, parse_eq_edge h]
  rfl

theorem edge?_parse_of_none (h : Edge.parse l n = none) : (Line.parse l n).edge? = none := by
  rw [Line.parse, h]
  cases declaration? l <;> rfl

theorem edgesFrom_keep (h : Edge.parse l n = none) :
    edgesFrom n (l :: ls) = edgesFrom (n + 1) ls := by
  rw [edgesFrom, parseFrom_cons, List.filterMap_cons_none (edge?_parse_of_none h)]
  rfl

theorem nodesFrom_cons (n : Nat) (l : Text) (ls : List Text) :
    nodesFrom n (l :: ls) = (Line.parse l n).node?.toList ++ nodesFrom (n + 1) ls := by
  rw [nodesFrom, parseFrom_cons, List.filterMap_cons]
  cases (Line.parse l n).node? <;> rfl

theorem wellFormed_edgesFrom (n : Nat) (lines : List Text) :
    ∀ e ∈ edgesFrom n lines, e.WellFormed := by
  induction lines generalizing n with
  | nil => simp [edgesFrom, parseFrom]
  | cons l ls ih =>
    cases h : Edge.parse l n with
    | none =>
      rw [edgesFrom_keep h]
      exact ih (n + 1)
    | some e =>
      rw [edgesFrom_edge h]
      have he : e.WellFormed := (Edge.parse_eq_some_iff.1 h).2.1
      simpa using ⟨he, ih (n + 1)⟩

/-! ## Lines and what they become -/

/-- The edges are those of the lines up to labels, and writing each on the line of its own turns
the lines into others. The first line has the place `n`. -/
inductive Rewrites : Nat → List Text → List Edge → List Text → Prop
  | nil (n : Nat) : Rewrites n [] [] []
  | edge {n : Nat} {l : Text} {ls out : List Text} {e e' : Edge} {es : List Edge} :
      Edge.parse l n = some e → e'.bare = e.bare → e'.WellFormed →
      Rewrites (n + 1) ls es out → Rewrites n (l :: ls) (e' :: es) (e'.render :: out)
  | keep {n : Nat} {l : Text} {ls out : List Text} {es : List Edge} :
      Edge.parse l n = none → Rewrites (n + 1) ls es out → Rewrites n (l :: ls) es (l :: out)

/-- The edge on a rewritten line is the one that was written. -/
theorem parse_render_of_bare {e e' : Edge} (h : Edge.parse l n = some e) (hbare : e'.bare = e.bare)
    (he' : e'.WellFormed) : Edge.parse e'.render n = some e' := by
  have hposition : e'.position = n :=
    (Edge.bare_eq_iff.1 hbare).1.trans (Edge.parse_eq_some_iff.1 h).1
  rw [← hposition]
  exact Edge.parse_render he'

theorem exists_rewrites (hbare : es.map Edge.bare = (edgesFrom n lines).map Edge.bare)
    (hes : ∀ e ∈ es, e.WellFormed) : ∃ out, Rewrites n lines es out := by
  induction lines generalizing n es with
  | nil =>
    obtain rfl : es = [] := by simpa [edgesFrom, parseFrom] using hbare
    exact ⟨[], .nil n⟩
  | cons l ls ih =>
    cases h : Edge.parse l n with
    | none =>
      rw [edgesFrom_keep h] at hbare
      obtain ⟨out, hout⟩ := ih hbare hes
      exact ⟨l :: out, .keep h hout⟩
    | some e =>
      rw [edgesFrom_edge h, List.map_cons] at hbare
      cases es with
      | nil => simp at hbare
      | cons e' es =>
        obtain ⟨he, hbare⟩ := List.cons.inj hbare
        obtain ⟨out, hout⟩ := ih hbare fun e he => hes e (List.mem_cons_of_mem _ he)
        exact ⟨e'.render :: out, .edge h he (hes e' List.mem_cons_self) hout⟩

theorem writeEdge_append {pre : List Text} (h : e.position = pre.length) :
    writeEdge (pre ++ l :: ls) e = pre ++ e.render :: ls := by
  have hne : pre.length ≠ (pre ++ l :: ls).length := by simp
  rw [writeEdge, h]
  show (if pre.length = (pre ++ l :: ls).length then _ else _) = _
  rw [if_neg hne]
  simp

namespace Rewrites

theorem writeEdges_eq (h : Rewrites n lines es out) (pre : List Text) (hn : n = pre.length) :
    writeEdges (pre ++ lines) es = pre ++ out := by
  induction h generalizing pre with
  | nil => rfl
  | @edge n l ls out e e' es hparse hbare he' _ ih =>
    have hposition : e'.position = pre.length := by
      rw [(Edge.bare_eq_iff.1 hbare).1, (Edge.parse_eq_some_iff.1 hparse).1, hn]
    have hrest := ih (pre ++ [e'.render]) (by simp [hn])
    rw [writeEdges, List.foldl_cons, writeEdge_append hposition]
    simpa [writeEdges] using hrest
  | @keep n l ls out es _ _ ih =>
    have hrest := ih (pre ++ [l]) (by simp [hn])
    simpa using hrest

theorem edges (h : Rewrites n lines es out) : edgesFrom n out = es := by
  induction h with
  | nil => rfl
  | edge hparse hbare he' _ ih => rw [edgesFrom_edge (parse_render_of_bare hparse hbare he'), ih]
  | keep hparse _ ih => rw [edgesFrom_keep hparse, ih]

theorem nodes (h : Rewrites n lines es out) : nodesFrom n out = nodesFrom n lines := by
  induction h with
  | nil => rfl
  | edge hparse hbare he' _ ih =>
    rw [nodesFrom_edge (parse_render_of_bare hparse hbare he'), nodesFrom_edge hparse, ih]
  | keep _ _ ih => rw [nodesFrom_cons, nodesFrom_cons, ih]

theorem length_eq (h : Rewrites n lines es out) : out.length = lines.length := by
  induction h with
  | nil => rfl
  | edge _ _ _ _ ih => rw [List.length_cons, List.length_cons, ih]
  | keep _ _ ih => rw [List.length_cons, List.length_cons, ih]

/-- Lines that state no edge are kept. -/
theorem getElem?_keep (h : Rewrites n lines es out) {i : Nat} {line : Text}
    (hline : lines[i]? = some line) (hparse : Edge.parse line (n + i : Nat) = none) :
    out[i]? = some line := by
  induction h generalizing i with
  | nil => simp at hline
  | @edge n l ls out e e' es hedge _ _ _ ih =>
    cases i with
    | zero =>
      obtain rfl : l = line := by simpa using hline
      rw [Nat.add_zero, hedge] at hparse
      cases hparse
    | succ i => exact ih hline (by rwa [Nat.add_right_comm, Nat.add_assoc])
  | keep _ _ ih =>
    cases i with
    | zero => exact hline
    | succ i => exact ih hline (by rwa [Nat.add_right_comm, Nat.add_assoc])

/-- Writing the same edges again changes nothing. -/
theorem again (h : Rewrites n lines es out) : Rewrites n out es out := by
  induction h with
  | nil n => exact .nil n
  | edge hparse hbare he' _ ih => exact .edge (parse_render_of_bare hparse hbare he') rfl he' ih
  | keep hparse _ ih => exact .keep hparse ih

end Rewrites

theorem rewrites_writeEdges (hbare : es.map Edge.bare = (edgesFrom 0 lines).map Edge.bare)
    (hes : ∀ e ∈ es, e.WellFormed) : Rewrites 0 lines es (writeEdges lines es) := by
  obtain ⟨out, hout⟩ := exists_rewrites hbare hes
  have hwrite : writeEdges lines es = out := hout.writeEdges_eq [] rfl
  rwa [hwrite]

/-! ## A pass over lines -/

theorem rewrites_relocateLabels (lines : List Text) :
    Rewrites 0 lines (Graph.ofLines lines).relocate.1.edges (relocateLabels lines) :=
  rewrites_writeEdges (Graph.bare_runPass _)
    (Graph.wellFormed_runPass (wellFormed_edgesFrom 0 lines))

/-- The lines state the graph that the pass ends with. -/
theorem ofLines_relocateLabels (lines : List Text) :
    Graph.ofLines (relocateLabels lines) = (Graph.ofLines lines).relocate.1 := by
  have h := rewrites_relocateLabels lines
  have hedges : edgesFrom 0 (relocateLabels lines) = (Graph.ofLines lines).runPass.edges := h.edges
  have hexits : Graph.exitsOf (edgesFrom 0 (relocateLabels lines)) =
      Graph.exitsOf (edgesFrom 0 lines) := by
    rw [hedges]
    exact Graph.exitsOf_eq_of_map_bare_eq (Graph.bare_runPass _)
  show Graph.mk (edgesFrom 0 _) (Table.ofPairs (nodesFrom 0 _)) (Graph.exitsOf (edgesFrom 0 _)) = _
  rw [hexits, h.nodes, hedges]
  rfl

/-- After a pass over the lines of a diagram, the lines state the graph that the pass ends with,
edges, texts and exits alike; they are as many as before; and those that state no edge are the
same at the same places. -/
theorem relocateLabels_states_relocation (lines : List Text) :
    Graph.ofLines (relocateLabels lines) = (Graph.ofLines lines).relocate.1 ∧
      (relocateLabels lines).length = lines.length ∧
      ∀ (i : Nat) (line : Text), lines[i]? = some line → (∀ e, Line.parse line i ≠ .edge e) →
        (relocateLabels lines)[i]? = some line := by
  have h := rewrites_relocateLabels lines
  refine ⟨ofLines_relocateLabels lines, h.length_eq, ?_⟩
  intro i line hline hother
  refine h.getElem?_keep hline ?_
  rw [Nat.zero_add]
  cases hparse : Edge.parse line i with
  | none => rfl
  | some e => exact absurd (parse_eq_edge hparse) (hother e)

example : (relocateLabels (["graph TD", "A -->|\"yes\"| B", "  B-->C", "B --> D",
    "C[\"use it\"]"].map String.toList)).map String.ofList =
    ["graph TD", "A --> B", "  B -->|\"yes\"| C", "B --> D", "C[\"use it\"]"] := by
  decide +kernel

end WikiTidy.Diagram
