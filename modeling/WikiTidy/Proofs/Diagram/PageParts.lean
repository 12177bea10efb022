import WikiTidy.Proofs.Diagram.Fences
import WikiTidy.Proofs.Text.LineEnds

/-!
# Pages repaired in parts

**Theorem (`repairDiagrams_append`).** When a page is cut behind a line feed, at a place where no
diagram is open, repairing it is repairing the two parts.

Three things are cut there. The lines of the page are the lines of the parts, since a line ends at
the cut. Reading the fences starts anew, since every diagram of the first part is closed, so a
diagram of the second part sees nothing of the first. And the new lines are joined part by part:
each part has as many lines as before, so the second part puts a line behind the line feed unless it
is empty.

At the end of a page repairing changes one thing: a carriage return that stands alone on the last
line goes, so that the line feed before it ends the page (`endsWithNewline_repairDiagrams_iff`).
-/

namespace WikiTidy.Diagram

open Text Lines

variable {a b : Text} {lines : List Text}

/-- The block is no diagram, or one that a fence closes. -/
def Block.isClosed : Block → Bool
  | line _ => true
  | diagram _ _ closing => closing.isSome

/-- No diagram is open behind lines whose diagrams are all closed. -/
theorem isOpenAfter_eq_false_iff :
    isOpenAfter false lines = false ↔ ∀ block ∈ Block.ofLines lines, block.isClosed = true := by
  induction lines using Block.induct with
  | nil => simp [Block.ofLines, Block.scan]
  | line line ls hline ih =>
    have hblocks : Block.ofLines (line :: ls) = .line line :: Block.ofLines ls := by
      simp [Block.ofLines, Block.scan, hline]
    simpa [hblocks, hline, Block.isClosed] using ih
  | unclosed opening body hopen hbody =>
    have hblocks : Block.ofLines (opening :: body) = [.diagram opening body none] := by
      have hscan := Block.scan_body hbody opening [] []
      rw [List.append_nil] at hscan
      simp [Block.ofLines, Block.scan, hopen, hscan]
    simp [hblocks, hopen, isOpenAfter_body hbody, Block.isClosed]
  | closed opening body closing ls hopen hbody hclosing ih =>
    have hblocks : Block.ofLines (opening :: (body ++ closing :: ls)) =
        .diagram opening body (some closing) :: Block.ofLines ls := by
      simp [Block.ofLines, Block.scan, hopen, Block.scan_body hbody, hclosing]
    simpa [hblocks, hopen, isOpenAfter_append, isOpenAfter_body hbody, hclosing, Block.isClosed]
      using ih

theorem repairLines_ne_nil (h : lines ≠ []) : repairLines lines ≠ [] := by
  rw [← List.length_pos_iff, length_repairLines]
  exact List.length_pos_iff.2 h

/-- Repairing a page is repairing its parts: the first part is empty or ends with a line feed, and
all its diagrams are closed. The second part may be any text. -/
theorem repairDiagrams_append (ha : a = [] ∨ endsWithNewline a = true)
    (hclosed : ∀ block ∈ Block.ofLines (ofText a), block.isClosed = true) (b : Text) :
    repairDiagrams (a ++ b) = repairDiagrams a ++ repairDiagrams b := by
  have hlines : repairLines (ofText (a ++ b)) = repairLines (ofText a) ++ repairLines (ofText b) := by
    rw [ofText_append ha, repairLines_append (isOpenAfter_eq_false_iff.2 hclosed)]
  have hnil : repairDiagrams [] = [] := rfl
  by_cases hb : b = []
  · rw [hb, hnil, List.append_nil, List.append_nil]
  rcases ha with rfl | ha
  · rw [hnil, List.nil_append, List.nil_append]
  have hne : a ≠ [] := by
    rintro rfl
    cases ha
  calc repairDiagrams (a ++ b)
      = Lines.join (repairLines (ofText a) ++ repairLines (ofText b)) (a ++ b) :=
        congrArg (Lines.join · _) hlines
    _ = Lines.join (repairLines (ofText a)) a ++ Lines.join (repairLines (ofText b)) b :=
        join_append ha hb (repairLines_ne_nil (ofText_ne_nil hne))
          (repairLines_ne_nil (ofText_ne_nil hb))

/-- A page with a flowchart that has a label to move. -/
def flowchartPage : Text :=
  "# A\r\n```mermaid\ngraph TD\nX -->|\"yes\"| D\nD --> a\nD --> fail\n```\n".toList

/-- A page with a fence that opens nothing, and a diagram that is never closed. -/
def openPage : Text := "```\r\n\n```mermaid\ngraph TD\nX -->|\"no\"| D\nD[\"- d\"]\n\r".toList

theorem flowchartPage_append_openPage :
    (endsWithNewline flowchartPage = true ∧
        ∀ block ∈ Block.ofLines (ofText flowchartPage), block.isClosed = true) ∧
      repairDiagrams (flowchartPage ++ openPage) =
        repairDiagrams flowchartPage ++ repairDiagrams openPage :=
  have hends : endsWithNewline flowchartPage = true := by decide +kernel
  have hclosed : ∀ block ∈ Block.ofLines (ofText flowchartPage), block.isClosed = true := by
    decide +kernel
  ⟨⟨hends, hclosed⟩, repairDiagrams_append (Or.inr hends) hclosed openPage⟩

/-! ## The end of a repaired page -/

theorem Edge.isEmpty_of_spells {e : Edge} {line : Text} (he : e.WellFormed) (h : e.Spells line) :
    line.isEmpty = false := by
  obtain ⟨w₁, w₂, w₃, w₄, -, -, -, -, -, rfl⟩ := h
  simp [he.source.1]

theorem Rewrites.map_isEmpty {n : Nat} {es : List Edge} {out : List Text}
    (h : Rewrites n lines es out) : out.map List.isEmpty = lines.map List.isEmpty := by
  induction h with
  | nil => rfl
  | edge hparse _ he' _ ih =>
    obtain ⟨-, he, hspells⟩ := Edge.parse_eq_some_iff.1 hparse
    rw [List.map_cons, List.map_cons, ih, Edge.isEmpty_of_spells he hspells,
      Edge.isEmpty_of_spells he' (Edge.spells_render _)]
  | keep _ _ ih => rw [List.map_cons, List.map_cons, ih]

theorem map_isEmpty_repair (lines : List Text) :
    (repair lines).map List.isEmpty = lines.map List.isEmpty := by
  have hclean : (cleanTexts lines).map List.isEmpty = lines.map List.isEmpty := by
    rw [cleanTexts, List.map_map]
    refine List.map_congr_left fun line _ => ?_
    rw [Function.comp_apply, Bool.eq_iff_iff, List.isEmpty_iff, List.isEmpty_iff,
      cleanLine_eq_nil_iff]
  simp only [repair]
  split
  · rw [(rewrites_relocateLabels _).map_isEmpty, hclean]
  · exact hclean

/-- **Repairing leaves empty lines empty, and makes none.** -/
theorem map_isEmpty_repairLines (lines : List Text) :
    (repairLines lines).map List.isEmpty = lines.map List.isEmpty := by
  induction lines using Block.induct with
  | nil => rfl
  | line line ls hline ih => rw [repairLines_cons hline, List.map_cons, List.map_cons, ih]
  | unclosed opening body hopen hbody =>
    rw [repairLines_unclosed hopen hbody, List.map_cons, List.map_cons, map_isEmpty_repair]
  | closed opening body closing ls hopen hbody hclosing ih =>
    rw [repairLines_closed hopen hbody hclosing]
    simp only [List.map_cons, List.map_append, map_isEmpty_repair, ih]

theorem trails_nil_repairLines_iff : Trails [] (repairLines lines) ↔ Trails [] lines := by
  have hlast : ∀ ls : List Text, ls.getLast? = some [] ↔ (ls.map List.isEmpty).getLast? = some true := by
    intro ls
    simp only [List.getLast?_map, Option.map_eq_some_iff, List.isEmpty_iff, exists_eq_right]
  rw [Trails, Trails, length_repairLines, hlast, hlast, map_isEmpty_repairLines]

/-- **A repaired page ends with a line feed when the page ended bare.** -/
theorem endsWithNewline_repairDiagrams_iff {page : Text} :
    endsWithNewline (repairDiagrams page) = true ↔ EndsBare page := by
  have hlines : ∀ line ∈ repairLines (ofText page), '\n' ∉ line :=
    notMem_of_mem_repairLines fun _ => notMem_of_mem_ofText
  rw [endsBare_iff, ← trails_nil_repairLines_iff]
  exact endsWithNewline_join_iff hlines page

end WikiTidy.Diagram
