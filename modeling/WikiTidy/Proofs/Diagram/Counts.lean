import WikiTidy.Proofs.Diagram.Conservation
import WikiTidy.Proofs.Diagram.NodeText
import WikiTidy.Proofs.Text.Lines

/-!
# What repairing diagrams takes away

Repairing a diagram replaces texts of nodes by remarks, moves labels from one edge to another, and
writes the edges that it read with single spaces. For a mark that sees nothing in a remark or a
space (`SeesRemarks`) none of this counts more than before: a remark stands for a text that may have
counted, all labels together stay the same (`sum_labels_runPass`), and an edge that is written has
no more on its line than the edge and its label (`Edge.count_render`).
-/

namespace WikiTidy.Diagram

open Text

variable {m : Mark} {line s : Text} {lines out : List Text} {e e' : Edge} {es : List Edge} {n : Nat}

/-- The mark sees nothing in a remark or a space, and a remark between slashes counts no more than a
link. -/
structure SeesRemarks (m : Mark) : Prop where
  list : m.IsSilent listRemark
  link : m.IsSilent linkRemark
  space : m.char ' ' = false
  before : ∀ x, m.slash x 'U' = true → m.slash x '[' = true ∧ m.slash x 'h' = true
  behind : ∀ x y, m.slash 'k' y = true → m.slash x y = true
  carriage : ∀ x, m.slash x '\n' = true → m.slash x '\r' = true

/-! ## Texts of nodes -/

theorem SeesRemarks.falls_link (hm : SeesRemarks m) {c : Char} (hc : c = '[' ∨ c = 'h') (w : Text) :
    m.Falls 0 linkRemark (c :: w) := by
  have hremark : linkRemark = 'U' :: ("nsupported markdown: lin".toList ++ ['k']) := by decide +kernel
  refine Mark.falls_of_ends (by simp [hremark]) (by simp) ?_ ?_ ?_
  · intro x y
    rw [hm.link.tally_eq_zero]
    exact Nat.zero_le _
  · intro x h
    rw [hremark] at h
    rcases hc with rfl | rfl
    · exact (hm.before x h).1
    · exact (hm.before x h).2
  · intro y h
    rw [hremark, ← List.cons_append, List.getLastD_concat] at h
    exact hm.behind _ y h

theorem SeesRemarks.falls_dropLinks (hm : SeesRemarks m) (text : Text) :
    m.Falls 0 (dropLinks text) text := by
  have hbracket : m.Falls (0 * hits bracketLink text)
      (replace bracketLink (fun _ => linkRemark) text) text := by
    refine Mark.falls_replace ?_ text
    intro b s u r h
    obtain ⟨w, rfl⟩ := bracketLink_eq_some h
    exact ⟨_, by simp, rfl, hm.falls_link (Or.inl rfl) w⟩
  have haddress : ∀ t, m.Falls (0 * hits bareAddress t)
      (replace bareAddress (fun _ => linkRemark) t) t := by
    intro t
    refine Mark.falls_replace ?_ t
    intro b s u r h
    obtain ⟨w, rfl⟩ := bareAddress_eq_some h
    exact ⟨_, by simp, rfl, hm.falls_link (Or.inr rfl) w⟩
  have hboth := hbracket.trans (haddress _)
  simpa [dropLinks] using hboth

theorem tally_renderText (m : Mark) (x : Char) (text : Text) (y : Char) :
    m.tally x (renderText text) y = m.tally x ['[', '"', '"', ']'] y + m.tally '"' text '"' := by
  have hsplit := m.tally_append_cons '"' text [']'] y (show '"' ≠ '/' by decide)
  have hline : renderText text = '[' :: '"' :: (text ++ '"' :: [']']) := by simp [renderText]
  rw [hline, Mark.tally_cons_of_ne (by decide), Mark.tally_cons_of_ne (by decide), hsplit]
  simp only [Mark.tally_cons_of_ne (show '[' ≠ '/' by decide),
    Mark.tally_cons_of_ne (show '"' ≠ '/' by decide)]
  omega

theorem SeesRemarks.falls_cleanText (hm : SeesRemarks m) (text : Text) :
    m.Falls 0 (renderText (cleanText text)) (renderText text) := by
  rw [cleanText]
  split
  · refine Mark.falls_of_ends (by simp [renderText]) (by simp [renderText]) ?_ ?_ ?_
    · intro x y
      rw [tally_renderText, tally_renderText, hm.list.tally_eq_zero]
      omega
    · exact fun x h => h
    · intro y h
      have hlast : ∀ t, (renderText t).getLastD '\n' = ']' := by
        intro t
        rw [show renderText t = ('[' :: '"' :: t ++ ['"']) ++ [']'] by simp [renderText],
          List.getLastD_concat]
      rw [hlast] at h ⊢
      exact h
  · have hlinks := (hm.falls_dropLinks text).within ['[', '"'] ['"', ']']
    simpa [renderText] using hlinks

theorem SeesRemarks.falls_cleanLine (hm : SeesRemarks m) (line : Text) :
    m.Falls 0 (cleanLine line) line := by
  have hline : m.Falls (0 * hits nodeText line) (cleanLine line) line := by
    refine Mark.falls_replace ?_ line
    intro b s text r h
    exact ⟨renderText text, nodeText_prints.ne_nil text, ((nodeText_prints.reads _ _ _ _).1 h).2,
      hm.falls_cleanText text⟩
  simpa using hline

/-! ## Edges on their lines -/

/-- No slash stands at an end of the text. -/
def IsShut (s : Text) : Prop := s.head? ≠ some '/' ∧ s.getLast? ≠ some '/'

theorem isShut_of_notMem (h : '/' ∉ s) : IsShut s :=
  ⟨fun hhead => h (List.mem_of_head? hhead), fun hlast => h (List.mem_of_getLast? hlast)⟩

theorem IsShut.append {t : Text} (hs : IsShut s) (ht : IsShut t) : IsShut (s ++ t) := by
  constructor
  · rw [List.head?_append]
    cases h : s.head? with
    | none => exact ht.1
    | some c => exact fun hc => hs.1 (h.trans hc)
  · rw [List.getLast?_append]
    cases h : t.getLast? with
    | none => exact hs.2
    | some c => exact fun hc => ht.2 (h.trans hc)

/-- A text without slashes at its ends counts the same wherever it stands. -/
theorem IsShut.tally_eq (hs : IsShut s) (x y : Char) : m.tally x s y = m.count s :=
  (Mark.tally_congr_left hs.1).trans (Mark.tally_congr_right hs.2)

theorem IsShut.count_append {t : Text} (hs : IsShut s) (ht : IsShut t) :
    m.count (s ++ t) = m.count s + m.count t := by
  rw [Mark.count, Mark.tally_append, hs.tally_eq, ht.tally_eq]

theorem isShut_renderLabel (label : Option Text) : IsShut (Edge.renderLabel label) := by
  cases label with
  | none => exact isShut_of_notMem (by simp [Edge.renderLabel])
  | some l =>
    constructor
    · simp [Edge.renderLabel]
    · rw [show Edge.renderLabel (some l) = ('|' :: '"' :: l ++ ['"']) ++ ['|'] by
        simp [Edge.renderLabel], List.getLast?_concat]
      decide

namespace Edge

/-- What an edge counts without its label. -/
def bareCount (m : Mark) (e : Edge) : Nat :=
  m.count e.indent + m.count e.source + m.count e.arrow + m.count e.destination

/-- What the label of an edge counts. -/
def labelCount (m : Mark) (e : Edge) : Nat := m.count (renderLabel e.label)

theorem bareCount_congr (h : e'.bare = e.bare) : bareCount m e' = bareCount m e := by
  obtain ⟨-, hindent, hsource, hdestination, harrow⟩ := bare_eq_iff.1 h
  rw [bareCount, bareCount, hindent, hsource, hdestination, harrow]

/-- The parts of an edge count for themselves, wherever they stand. -/
theorem count_parts (he : e.WellFormed) {w₁ w₂ w₃ w₄ : Text} (hw₁ : Blank w₁) (hw₂ : Blank w₂)
    (hw₃ : Blank w₃) (hw₄ : Blank w₄) :
    m.count (e.indent ++ (e.source ++ (w₁ ++ (e.arrow ++ (w₂ ++ (renderLabel e.label ++
      (w₃ ++ (e.destination ++ w₄)))))))) =
      bareCount m e + labelCount m e + m.count w₁ + m.count w₂ + m.count w₃ + m.count w₄ := by
  have hindent := isShut_of_notMem (he.indent.notMem (by decide))
  have hsource := isShut_of_notMem (he.source.notMem (by decide))
  have harrow := isShut_of_notMem (he.arrow.notMem (by decide) (by decide))
  have hdestination := isShut_of_notMem (he.destination.notMem (by decide))
  have hlabel := isShut_renderLabel e.label
  have h₁ := isShut_of_notMem (hw₁.notMem (by decide))
  have h₂ := isShut_of_notMem (hw₂.notMem (by decide))
  have h₃ := isShut_of_notMem (hw₃.notMem (by decide))
  have h₄ := isShut_of_notMem (hw₄.notMem (by decide))
  have hd := hdestination.append h₄
  have hl := hlabel.append (h₃.append hd)
  have ha := harrow.append (h₂.append hl)
  have hs := hsource.append (h₁.append ha)
  rw [hindent.count_append hs, hsource.count_append (h₁.append ha), h₁.count_append ha,
    harrow.count_append (h₂.append hl), h₂.count_append hl, hlabel.count_append (h₃.append hd),
    h₃.count_append hd, hdestination.count_append h₄, bareCount, labelCount]
  omega

theorem le_count_of_spells (he : e.WellFormed) (h : e.Spells line) :
    bareCount m e + labelCount m e ≤ m.count line := by
  obtain ⟨w₁, w₂, w₃, w₄, hw₁, hw₂, hw₃, hw₄, -, rfl⟩ := h
  rw [count_parts he hw₁ hw₂ hw₃ hw₄]
  omega

/-- **An edge that is written counts no more than its parts.** -/
theorem count_render (hspace : m.char ' ' = false) (he : e.WellFormed) :
    m.count e.render = bareCount m e + labelCount m e := by
  have hsilent : m.count [' '] = 0 := by
    rw [Mark.count, Mark.tally_of_notMem (by decide), List.countP_singleton, if_neg (by simp [hspace])]
  cases hlabel : e.label with
  | none =>
    have hparts := count_parts (m := m) he blank_space blank_space blank_nil blank_nil
    simpa [render, hlabel, renderLabel, hsilent] using hparts
  | some l =>
    have hparts := count_parts (m := m) he blank_space blank_nil blank_space blank_nil
    simpa [render, hlabel, renderLabel, hsilent] using hparts

end Edge

/-! ## Moving labels -/

/-- **All labels together stay the same.** -/
theorem sum_labels_runPass (g : Graph) :
    (g.runPass.edges.map (Edge.labelCount m)).sum = (g.edges.map (Edge.labelCount m)).sum := by
  have hsum (es : List Edge) : es.map (Edge.labelCount m) =
      (es.map Edge.label).map fun label => m.count (Edge.renderLabel label) := by
    rw [List.map_map]
    rfl
  rw [hsum, hsum]
  exact (g.perm_labels_runPass.map _).sum_nat

theorem Rewrites.count_le (hspace : m.char ' ' = false) (h : Rewrites n lines es out) :
    (out.map m.count).sum + ((edgesFrom n lines).map (Edge.labelCount m)).sum ≤
      (lines.map m.count).sum + (es.map (Edge.labelCount m)).sum := by
  induction h with
  | nil => simp [edgesFrom, parseFrom]
  | @edge n l ls out e e' es hparse hbare he' _ ih =>
    obtain ⟨-, he, hspells⟩ := Edge.parse_eq_some_iff.1 hparse
    have hline := Edge.le_count_of_spells (m := m) he hspells
    have hbareCount := Edge.bareCount_congr (m := m) hbare
    rw [edgesFrom_edge hparse]
    simp only [List.map_cons, List.sum_cons, Edge.count_render hspace he']
    omega
  | keep hparse _ ih =>
    rw [edgesFrom_keep hparse]
    simp only [List.map_cons, List.sum_cons]
    omega

/-- Moving labels makes the lines count no more. -/
theorem sum_relocateLabels_le (hspace : m.char ' ' = false) (lines : List Text) :
    ((relocateLabels lines).map m.count).sum ≤ (lines.map m.count).sum := by
  have hrewrites := (rewrites_relocateLabels lines).count_le hspace
  have hlabels : ((Graph.ofLines lines).relocate.1.edges.map (Edge.labelCount m)).sum =
      ((edgesFrom 0 lines).map (Edge.labelCount m)).sum :=
    sum_labels_runPass (Graph.ofLines lines)
  omega

/-! ## Whole diagrams -/

theorem length_repair (lines : List Text) : (repair lines).length = lines.length := by
  have hclean : (cleanTexts lines).length = lines.length := List.length_map _
  simp only [repair]
  split
  · rw [(rewrites_relocateLabels _).length_eq, hclean]
  · exact hclean

theorem SeesRemarks.sum_repair_le (hm : SeesRemarks m) (lines : List Text) :
    ((repair lines).map m.count).sum ≤ (lines.map m.count).sum := by
  have hclean : ((cleanTexts lines).map m.count).sum ≤ (lines.map m.count).sum := by
    rw [cleanTexts, List.map_map]
    exact List.sum_le_sum fun line _ => (hm.falls_cleanLine line).count_le
  simp only [repair]
  split
  · exact (sum_relocateLabels_le hm.space _).trans hclean
  · exact hclean

theorem length_lines_mapBody (block : Block) :
    (block.mapBody repair).lines.length = block.lines.length := by
  cases block with
  | line l => rfl
  | diagram opening body closing => simp [Block.mapBody, Block.lines, length_repair]

theorem SeesRemarks.sum_lines_mapBody_le (hm : SeesRemarks m) (block : Block) :
    ((block.mapBody repair).lines.map m.count).sum ≤ (block.lines.map m.count).sum := by
  cases block with
  | line l => exact Nat.le_refl _
  | diagram opening body closing =>
    have hbody := hm.sum_repair_le body
    simp only [Block.mapBody, Block.lines, List.map_append, List.map_cons, List.sum_append,
      List.sum_cons]
    omega

/-- The lines with every diagram among them repaired. -/
def repairLines (lines : List Text) : List Text :=
  (Block.ofLines lines).flatMap fun block => (block.mapBody repair).lines

theorem length_repairLines (lines : List Text) : (repairLines lines).length = lines.length := by
  have hblocks : (repairLines lines).length = ((Block.ofLines lines).flatMap Block.lines).length := by
    rw [repairLines, List.length_flatMap, List.length_flatMap]
    simp only [length_lines_mapBody]
  rw [hblocks, Block.lines_ofLines]

theorem SeesRemarks.sum_repairLines_le (hm : SeesRemarks m) (lines : List Text) :
    ((repairLines lines).map m.count).sum ≤ (lines.map m.count).sum := by
  have hblocks : ∀ blocks : List Block,
      ((blocks.flatMap fun block => (block.mapBody repair).lines).map m.count).sum ≤
        ((blocks.flatMap Block.lines).map m.count).sum := by
    intro blocks
    induction blocks with
    | nil => simp
    | cons block blocks ih =>
      have hsum := hm.sum_lines_mapBody_le block
      simp only [List.flatMap_cons, List.map_append, List.sum_append]
      omega
  have hlines := hblocks (Block.ofLines lines)
  rwa [Block.lines_ofLines] at hlines

/-- **Repairing diagrams makes a page count no more.** -/
theorem SeesRemarks.count_repairDiagrams_le (hm : SeesRemarks m) (page : Text) :
    m.count (repairDiagrams page) ≤ m.count page := by
  have hlength : (repairLines (Lines.ofText page)).length ≤ (Lines.pieces page).length := by
    rw [length_repairLines, Lines.length_ofText]
  exact Lines.count_join_le (k := 0) hlength
    ((hm.sum_repairLines_le _).trans (Lines.sum_ofText_le hm.carriage page))

/-! ## Diagrams that are left alone -/

theorem seesRemarks_ofChars {cs : List Char}
    (h : ((listRemark ++ linkRemark).all fun c => !cs.contains c) = true) :
    SeesRemarks (Mark.ofChars cs) := by
  have hremarks : ∀ c ∈ listRemark ++ linkRemark, (Mark.ofChars cs).char c = false := by
    intro c hc
    simpa [Mark.ofChars] using List.all_eq_true.1 h c hc
  exact {
    list := ⟨by decide +kernel, fun c hc => hremarks c (List.mem_append_left _ hc)⟩
    link := ⟨by decide +kernel, fun c hc => hremarks c (List.mem_append_right _ hc)⟩
    space := hremarks ' ' (by decide +kernel)
    before := fun _ h => by cases h
    behind := fun _ _ h => h
    carriage := fun _ h => by cases h }

/-- Repairing breaks no line in two. -/
theorem notMem_of_mem_repairLines (h : ∀ line ∈ lines, '\n' ∉ line) :
    ∀ line ∈ repairLines lines, '\n' ∉ line := by
  have hcount : ∀ line : Text, (Mark.ofChars ['\n']).count line = 0 ↔ '\n' ∉ line := by
    intro line
    rw [Mark.count, Mark.tally_ofChars (by decide), List.countP_eq_zero]
    constructor
    · exact fun hzero hmem => hzero '\n' hmem (by decide)
    · rintro hmem c hc heq
      obtain rfl : c = '\n' := by simpa using heq
      exact hmem hc
  have hm : SeesRemarks (Mark.ofChars ['\n']) := seesRemarks_ofChars (by decide +kernel)
  have hsum := hm.sum_repairLines_le lines
  have hlines : (lines.map (Mark.ofChars ['\n']).count).sum = 0 := by
    rw [List.sum_eq_zero_iff, List.forall_mem_map]
    exact fun line hline => (hcount line).2 (h line hline)
  rw [hlines, Nat.le_zero, List.sum_eq_zero_iff, List.forall_mem_map] at hsum
  exact fun line hline => (hcount line).1 (hsum line hline)

/-- Blocks whose lines stay the same stay the same. -/
theorem mapBody_eq_self_of_lines {block : Block}
    (h : (block.mapBody repair).lines = block.lines) : block.mapBody repair = block := by
  cases block with
  | line l => rfl
  | diagram opening body closing =>
    have hbody : repair body = body := by simpa [Block.mapBody, Block.lines] using h
    rw [Block.mapBody, hbody]

theorem repairLines_eq_self_iff :
    repairLines lines = lines ↔ ∀ block ∈ Block.ofLines lines, block.mapBody repair = block := by
  have hblocks : ∀ blocks : List Block,
      (blocks.flatMap fun block => (block.mapBody repair).lines) = blocks.flatMap Block.lines ↔
        ∀ block ∈ blocks, block.mapBody repair = block := by
    intro blocks
    induction blocks with
    | nil => simp
    | cons block blocks ih =>
      rw [List.flatMap_cons, List.flatMap_cons, List.forall_mem_cons, ← ih]
      constructor
      · intro h
        obtain ⟨hblock, hrest⟩ := List.append_inj h (length_lines_mapBody block)
        exact ⟨mapBody_eq_self_of_lines hblock, hrest⟩
      · rintro ⟨hblock, hrest⟩
        rw [hblock, hrest]
  have hlines := hblocks (Block.ofLines lines)
  rwa [Block.lines_ofLines] at hlines

/-- **A page is left alone exactly when each of its diagrams is**, where no line ends with a carriage
return. -/
theorem repairDiagrams_eq_self_iff {page : Text} (h : Lines.ofText page = Lines.pieces page) :
    repairDiagrams page = page ↔
      ∀ block ∈ Block.ofLines (Lines.ofText page), block.mapBody repair = block := by
  have hpieces : ∀ line ∈ Lines.ofText page, '\n' ∉ line := by
    rw [h]
    exact fun line => Lines.notMem_of_mem_pieces
  have hpage : Lines.join (Lines.ofText page) page = page := by rw [h, Lines.join_pieces]
  calc repairDiagrams page = page
      ↔ Lines.join (repairLines (Lines.ofText page)) page =
          Lines.join (Lines.ofText page) page := by
        rw [hpage]
        rfl
    _ ↔ repairLines (Lines.ofText page) = Lines.ofText page :=
        Lines.join_left_inj (length_repairLines _) (notMem_of_mem_repairLines hpieces) hpieces page
    _ ↔ ∀ block ∈ Block.ofLines (Lines.ofText page), block.mapBody repair = block :=
        repairLines_eq_self_iff

end WikiTidy.Diagram
