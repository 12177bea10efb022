import WikiTidy.Page.Normalize
import WikiTidy.Proofs.Diagram.PageParts
import WikiTidy.Proofs.Link.Blob
import WikiTidy.Proofs.Link.Site
import WikiTidy.Proofs.Page.Cleanup

/-!
# The line feed at the end of a page

**Theorem (`normalize_endsWithNewline_iff`).** A page that ends with a line feed does so in its normal
form. Another page may end with one afterwards, and the theorem says exactly which do.

Passes that work line by line join the lines they keep, and put a line feed behind them if the page
had one. When the last of these lines is empty, the page ends with the line feed before it all the
same. There are two ways to such a line: a carriage return that stands alone, which reading the
lines takes away, and an empty line in front of prompts, which is the last one when they are gone
(`promptPage_gains_newline`).

The other passes keep the end of a page. A copy marker takes all blanks before it along, so it
leaves no line feed at the end. Links are bars: whatever is written for them ends with something
other than a line feed and carriage returns.
-/

namespace WikiTidy.Page

open Text Lines Link Diagram

variable {page s : Text} {anchors : Anchors}

/-! ## Export noise -/

theorem endsWithNewline_dropPreamble_iff :
    endsWithNewline (dropPreamble page) = true ↔
      endsWithNewline page = true ∨ hasPreamble page = true ∧ EndsBare page := by
  cases hfind : (ofText page).findIdx? isHeading with
  | none => simp [dropPreamble, hasPreamble, hfind]
  | some above =>
    cases above with
    | zero => simp [dropPreamble, hasPreamble, hfind]
    | succ above =>
      obtain ⟨hlength, hheading, -⟩ := List.findIdx?_eq_some_iff_getElem.1 hfind
      have hlines : ∀ line ∈ (ofText page).drop (above + 1), '\n' ∉ line :=
        fun line h => notMem_of_mem_ofText (List.drop_subset _ _ h)
      -- The first line that is kept is a heading, so it is not the empty one at the end.
      have hne : (ofText page)[above + 1] ≠ [] := by
        intro hnil
        rw [hnil] at hheading
        exact absurd hheading (by decide)
      have htrails : Trails [] ((ofText page).drop (above + 1)) ↔ Trails [] (ofText page) := by
        have hcut := List.take_append_drop (above + 1) (ofText page)
        rw [List.drop_eq_getElem_cons hlength] at hcut ⊢
        rw [← trails_append_cons hne, hcut]
      have hpreamble : hasPreamble page = true := by simp [hasPreamble, hfind]
      have hdrop : dropPreamble page = Lines.join ((ofText page).drop (above + 1)) page := by
        simp [dropPreamble, hfind]
      rw [hdrop, endsWithNewline_join_iff hlines, htrails, endsBare_iff, hpreamble]
      simp

theorem copiedMarker_ne_nil : copiedMarker ≠ [] := by decide +kernel

theorem copied_isLocal : copied.IsLocal where
  anywhere _ _ := rfl
  takes s a r h := by
    obtain ⟨blanks, rfl⟩ := copied_eq_some h
    exact ⟨blanks ++ copiedMarker, List.append_ne_nil_of_right_ne_nil _ copiedMarker_ne_nil, rfl⟩

/-- A blank before a copy marker belongs to it. -/
theorem copied_cons_of_isBlank {c : Char} (hc : isBlank c = true) :
    copied true (c :: s) = copied true s := by
  simp [copied, trimStart, hc]

/-- **Copy markers leave the end of a page as it is.** -/
theorem endsWithNewline_dropCopied (page : Text) :
    endsWithNewline (dropCopied page) = endsWithNewline page := by
  induction page using copied_isLocal.induct with
  | nil => rfl
  | plain c s hplain ih =>
    rw [dropCopied, copied_isLocal.replace_cons hplain]
    by_cases hs : s = []
    · rw [hs]
      rfl
    have hpage := endsWithNewline_append (a := [c]) hs
    rw [List.singleton_append] at hpage
    rw [hpage, ← ih]
    by_cases hnil : dropCopied s = []
    · -- A marker stands at once behind the character, which is no blank then.
      have hc : c ≠ '\n' := by
        rintro rfl
        rw [copied_cons_of_isBlank (by decide)] at hplain
        obtain ⟨d, t, rfl⟩ := List.exists_cons_of_ne_nil hs
        rw [dropCopied, copied_isLocal.replace_cons hplain] at hnil
        cases hnil
      rw [dropCopied] at hnil
      simp [dropCopied, hnil, endsWithNewline, hc]
    · exact endsWithNewline_append (a := [c]) hnil
  | hit u w r hw hread ih =>
    rw [dropCopied, copied_isLocal.replace_append hw hread, List.nil_append]
    by_cases hr : r = []
    · obtain ⟨blanks, hsource⟩ := copied_eq_some hread
      rw [List.append_cancel_right hsource, hr, List.append_nil,
        endsWithNewline_append copiedMarker_ne_nil]
      decide +kernel
    · rw [endsWithNewline_append hr]
      exact ih

/-- The lines of a page that are no prompts. -/
def keptLines (page : Text) : List Text := (ofText page).filter fun line => !isPrompt line

theorem notMem_of_mem_keptLines {line : Text} (h : line ∈ keptLines page) : '\n' ∉ line :=
  notMem_of_mem_ofText (List.mem_of_mem_filter h)

theorem endsWithNewline_dropPrompts_iff :
    endsWithNewline (dropPrompts page) = true ↔
      endsWithNewline page = true ∨ Trails [] (keptLines page) :=
  endsWithNewline_join_iff (fun _ => notMem_of_mem_keptLines) page

/-! ## Links -/

theorem isBar_concat (v : Text) {c : Char} (hc : c ∉ ['\n', '\r']) : IsBar (v ++ [c]) :=
  ⟨v, c, [], rfl, hc, by simp⟩

theorem isBar_of_isPathChar {path : Text} (hne : path ≠ [])
    (hpath : ∀ c ∈ path, isPathChar c = true) : IsBar path := by
  obtain ⟨v, c, rfl⟩ := (List.eq_nil_or_concat' path).resolve_left hne
  refine isBar_concat v fun hc => ?_
  have hpathChar := hpath c (by simp)
  rcases List.mem_pair.1 hc with rfl | rfl <;> exact absurd hpathChar (by decide)

theorem endsBare_absolute_iff : EndsBare (absolute page) ↔ EndsBare page := by
  rw [absolute, endsBare_replace_iff, endsBare_replace_iff]
  · intro b s path r h
    obtain ⟨rfl, -⟩ := inline_eq_some h
    exact ⟨_, rfl, isBar_concat _ (by decide), isBar_concat _ (by decide)⟩
  · rintro b s ⟨head, path⟩ r h
    obtain ⟨rfl, -, ⟨y, rest, hpath, -⟩, hchars⟩ := definition_eq_some h
    have hbar : IsBar path := isBar_of_isPathChar (by simp [hpath]) hchars
    exact ⟨_, rfl, hbar.append_left head, hbar.append_left (head ++ origin)⟩

theorem isBar_render (blob : Blob) {name : Text} (hname : '\n' ∉ name) :
    IsBar (blob.render ++ name) :=
  ⟨blob.root ++ Blob.marker ++ blob.revision, '/', name, by simp [Blob.render], by decide, hname⟩

theorem isBar_readmeAnchor (blob : Blob) {anchor : Text} (hanchor : '\n' ∉ anchor) :
    IsBar (blob.render ++ readmeAnchor ++ anchor) :=
  ⟨blob.render ++ "README.md".toList, '#', anchor,
    by simp [show readmeAnchor = "README.md".toList ++ ['#'] by decide +kernel], by decide, hanchor⟩

theorem endsBare_toAnchors_iff (hanchors : ∀ e ∈ anchors, '\n' ∉ e.1 ∧ '\n' ∉ e.2) :
    EndsBare (toAnchors anchors page) ↔ EndsBare page := by
  induction anchors generalizing page with
  | nil => exact Iff.rfl
  | cons entry anchors ih =>
    obtain ⟨name, anchor⟩ := entry
    obtain ⟨⟨hname, hanchor⟩, hanchors⟩ := List.forall_mem_cons.1 hanchors
    rw [toAnchors_cons, ih hanchors, toAnchor, endsBare_replace_iff]
    intro b s blob r h
    obtain ⟨-, rfl⟩ := ((Blob.ofSection_prints name).reads b s blob r).1 h
    exact ⟨_, rfl, isBar_render blob hname, isBar_readmeAnchor blob hanchor⟩

theorem endsBare_dropRevisions_iff : EndsBare (dropRevisions page) ↔ EndsBare page := by
  rw [dropRevisions, endsBare_replace_iff]
  intro b s blob r h
  obtain ⟨-, rfl⟩ := (Blob.anywhere_prints.reads b s blob r).1 h
  exact ⟨_, rfl, isBar_concat _ (by decide), isBar_concat _ (by decide)⟩

/-! ## All passes -/

/-- **When a page ends with a line feed**, behind each pass that works line by line and behind all
passes: always if it did before, and else if the last line that is kept, and not the only one, is
empty or a carriage return that will go. -/
theorem normalize_endsWithNewline_iff (hanchors : ∀ e ∈ anchors, '\n' ∉ e.1 ∧ '\n' ∉ e.2)
    (page : Text) :
    (endsWithNewline (dropPreamble page) = true ↔
        endsWithNewline page = true ∨ hasPreamble page = true ∧ EndsBare page) ∧
      (endsWithNewline (dropPrompts page) = true ↔
        endsWithNewline page = true ∨ Trails [] (keptLines page)) ∧
      (endsWithNewline (repairDiagrams page) = true ↔ EndsBare page) ∧
      (endsWithNewline (normalize anchors page) = true ↔
        endsWithNewline page = true ∨ hasPreamble page = true ∧ EndsBare page ∨
          Trails [] (keptLines (dropCopied (dropPreamble page))) ∨
          Trails ['\r'] (keptLines (dropCopied (dropPreamble page)))) := by
  refine ⟨endsWithNewline_dropPreamble_iff, endsWithNewline_dropPrompts_iff,
    endsWithNewline_repairDiagrams_iff, ?_⟩
  rw [normalize, endsWithNewline_repairDiagrams_iff, endsBare_dropRevisions_iff,
    endsBare_toAnchors_iff hanchors, endsBare_absolute_iff]
  have hlines : ∀ line ∈ keptLines (dropCopied (dropPreamble page)), '\n' ∉ line :=
    fun _ => notMem_of_mem_keptLines
  have hkept := endsBare_join_iff hlines (dropCopied (dropPreamble page))
  rw [endsWithNewline_dropCopied, endsWithNewline_dropPreamble_iff, or_assoc] at hkept
  exact hkept

/-- A page with lines above its heading, and a carriage return behind its last line feed. -/
def menuPage : Text := "Menu\n# A\n\r".toList

theorem menuPage_gains_newline :
    (∀ e ∈ Anchors.standard, '\n' ∉ e.1 ∧ '\n' ∉ e.2) ∧
      endsWithNewline menuPage = false ∧ hasPreamble menuPage = true ∧ EndsBare menuPage ∧
      endsWithNewline (normalize Anchors.standard menuPage) = true :=
  have hanchors : ∀ e ∈ Anchors.standard, '\n' ∉ e.1 ∧ '\n' ∉ e.2 := by decide +kernel
  have hpage : hasPreamble menuPage = true ∧ EndsBare menuPage := by decide +kernel
  ⟨hanchors, by decide +kernel, hpage.1, hpage.2,
    (normalize_endsWithNewline_iff hanchors menuPage).2.2.2.2 (Or.inr (Or.inl hpage))⟩

/-- A page whose last line is a prompt, with an empty line in front of it. -/
def promptPage : Text := "# A\n\nAsk Devin about A".toList

/-- Without the prompt the empty line is the last one, and its line feed ends the page. -/
theorem promptPage_gains_newline :
    ¬(endsWithNewline (normalize Anchors.standard promptPage) = true ↔
      endsWithNewline promptPage = true) := by
  decide +kernel

end WikiTidy.Page
