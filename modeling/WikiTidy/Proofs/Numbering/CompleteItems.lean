import Mathlib.Data.List.Induction
import Mathlib.Data.List.Infix
import WikiTidy.Proofs.Numbering.Items
import WikiTidy.Proofs.Text.Replacing

/-!
# Complete items of an index

A line of a readme that is an item by itself is complete (`completeItems`). The index is not read
from these lines: broken targets are joined first, and a target reaches from `](` to the next
closing parenthesis, over any number of lines. So a `](` without one takes in every line up to the
next that has a closing parenthesis, be it a complete item.

**Theorem (`entries_of_completeItems`).** A complete item is listed in its place when the text in
front of it leaves no link open (`LeavesOpen`). Otherwise its line is read as the end of a longer
one, which is no item or one with another target.

Both halves come from what joining does at the start of a line:

* *behind closed text* no target runs over the cut, so the two parts are joined one by one
  (`joinTargets_append_of_closed`), and
* *open text* is closed text, a `](` and text without a closing parenthesis. Whatever follows, the
  lines in front of that `](` are read as before (`exists_of_leavesOpen`).
-/

namespace WikiTidy.Numbering

open Text

variable {page front line back target lead a b s u : Text}

/-! ## Links that are left open -/

/-- A link is begun behind the last closing parenthesis of the text. -/
def LeavesOpen (s : Text) : Prop := [']', '('] <:+: (splitLast ')' s).2

instance : DecidablePred LeavesOpen := fun _ => inferInstanceAs (Decidable (_ <:+: _))

theorem leavesOpen_iff : LeavesOpen s ↔ ∃ a b, s = a ++ ']' :: '(' :: b ∧ ')' ∉ b := by
  constructor
  · rintro ⟨x, y, hxy⟩
    obtain ⟨hs, -, hlast⟩ := splitLast_spec ')' s
    rw [← hxy] at hs hlast
    exact ⟨(splitLast ')' s).1 ++ x, y, by simpa using hs,
      fun hmem => hlast (List.mem_append_right _ hmem)⟩
  · rintro ⟨a, b, rfl, hb⟩
    obtain ⟨stem, n, hstem, hn, rfl⟩ := exists_eq_stem_append ')' a
    have htail : ')' ∉ n ++ ']' :: '(' :: b := by simp [hn, hb]
    rw [LeavesOpen, List.append_assoc, splitLast_append hstem htail]
    exact ⟨n, b, by simp⟩

theorem LeavesOpen.append_left (h : LeavesOpen s) (t : Text) : LeavesOpen (t ++ s) := by
  obtain ⟨a, b, rfl, hb⟩ := leavesOpen_iff.1 h
  exact leavesOpen_iff.2 ⟨t ++ a, b, by simp, hb⟩

/-- Up to the first link that is left open the text is closed. -/
theorem LeavesOpen.exists_first (h : LeavesOpen s) :
    ∃ a b, s = a ++ ']' :: '(' :: b ∧ ')' ∉ b ∧ ¬LeavesOpen a := by
  induction hn : s.length using Nat.strongRecOn generalizing s with
  | ind n ih =>
    obtain ⟨a, b, rfl, hb⟩ := leavesOpen_iff.1 h
    by_cases ha : LeavesOpen a
    · have hlt : a.length < n := by simp [← hn]
      obtain ⟨a, c, rfl, hc, hclosed⟩ := ih a.length hlt ha rfl
      exact ⟨a, c ++ ']' :: '(' :: b, by simp, by simp [hb, hc], hclosed⟩
    · exact ⟨a, b, rfl, hb, ha⟩

/-! ## Joining part by part -/

theorem joinTargets_of_notMem (h : '\n' ∉ s ∨ ')' ∉ s) : joinTargets s = s := by
  refine replace_of_hits_eq_zero _ ((hits_eq_zero_iff brokenTarget_prints.isLocal).2 fun r hr => ?_)
  rw [Option.eq_none_iff_forall_ne_some]
  rintro ⟨t, r⟩ hread
  obtain ⟨⟨hbroken, -⟩, rfl⟩ := brokenTarget_eq_some_iff.1 hread
  rcases h with h | h
  · exact h (hr.subset (by simp [renderTarget, hbroken]))
  · exact h (hr.subset (by simp [renderTarget]))

/-- **No target runs over the end of closed text**, if no `](` is cut in two there. -/
theorem joinTargets_append_of_closed (hclosed : ¬LeavesOpen a)
    (hcut : a.getLast? ≠ some ']' ∨ b.head? ≠ some '(') :
    joinTargets (a ++ b) = joinTargets a ++ joinTargets b := by
  refine brokenTarget_prints.replace_append_of_cut fun t v x ht hprint hv hx hsuffix hprefix => ?_
  obtain ⟨front, rfl⟩ := hsuffix
  match v with
  | [] => exact hv rfl
  | [c] =>
    obtain ⟨rfl, rfl⟩ := List.cons.inj hprint
    obtain ⟨back, rfl⟩ := hprefix
    simp at hcut
  | c :: d :: v =>
    obtain ⟨rfl, rfl, htarget⟩ : ']' = c ∧ '(' = d ∧ t ++ [')'] = v ++ x := by
      simpa [renderTarget] using hprint
    obtain ⟨x, e, rfl⟩ := (List.eq_nil_or_concat' x).resolve_left hx
    rw [← List.append_assoc] at htarget
    obtain ⟨rfl, -⟩ := List.append_inj' htarget rfl
    exact hclosed (leavesOpen_iff.2 ⟨front, v, rfl, fun hmem => ht.2 (List.mem_append_left x hmem)⟩)

theorem joinTargets_concat_newline (s : Text) :
    joinTargets (s ++ ['\n']) = joinTargets s ++ ['\n'] := by
  refine brokenTarget_prints.replace_append_of_apart (fun t v x _ hprint _ hx hprefix => ?_) s
  obtain ⟨x, c, rfl⟩ := (List.eq_nil_or_concat' x).resolve_left hx
  rw [renderTarget, ← List.append_assoc] at hprint
  obtain ⟨-, hlast⟩ := List.append_inj' hprint rfl
  obtain rfl : ')' = c := List.singleton_inj.1 hlast
  simpa using hprefix.subset (List.mem_append_right x (List.mem_singleton_self ')'))

theorem isStem_joinTargets (h : IsStem '\n' s) : IsStem '\n' (joinTargets s) := by
  rcases h with rfl | ⟨t, rfl⟩
  · exact Or.inl rfl
  · exact Or.inr ⟨joinTargets t, joinTargets_concat_newline t⟩

/-- A link that is closed somewhere is joined up to there. -/
theorem joinTargets_open (hu : ')' ∉ u) (r : Text) :
    joinTargets (']' :: '(' :: (u ++ ')' :: r)) =
      ']' :: '(' :: (joined u ++ ')' :: joinTargets r) := by
  by_cases hbroken : '\n' ∈ u
  · rw [← renderTarget_append, ← renderTarget_append]
    exact brokenTarget_prints.replace_append ⟨hbroken, hu⟩ r
  · rw [joined_of_notMem hbroken, ← List.cons_append, ← List.cons_append,
      joinTargets_append (by simp [hbroken]) (by simp [hu])]
    rfl

/-! ## Complete items -/

/-- The target of a line that is an item by itself and leads to a page of the site. -/
def pageItem? (line : Text) : Option Text := (itemTarget? line).filter isLocalPage

/-- The targets of the lines of a page that are items by themselves and lead to pages. -/
def completeItems (page : Text) : List Text := (Lines.ofText page).filterMap pageItem?

/-- The entries of a page are its complete items after broken targets are joined. -/
theorem entries_eq_completeItems (page : Text) : entries page = completeItems (joinTargets page) :=
  List.filter_filterMap

theorem completeItems_eq (page : Text) :
    completeItems page = (split '\n' page).filterMap pageItem? := by
  calc
    completeItems page = ((Lines.ofText page).filterMap itemTarget?).filter isLocalPage :=
      List.filter_filterMap.symm
    _ = ((split '\n' page).filterMap itemTarget?).filter isLocalPage := by
      rw [filterMap_itemTarget?_ofText]
    _ = _ := List.filter_filterMap

theorem completeItems_append_newline (a b : Text) :
    completeItems (a ++ '\n' :: b) = completeItems a ++ completeItems b := by
  simp only [completeItems_eq, split_append_sep, List.filterMap_append]

theorem completeItems_concat_newline (s : Text) : completeItems (s ++ ['\n']) = completeItems s :=
  (completeItems_append_newline s []).trans (List.append_nil _)

theorem completeItems_append (hs : IsStem '\n' s) (t : Text) :
    completeItems (s ++ t) = completeItems s ++ completeItems t := by
  rcases hs with rfl | ⟨s, rfl⟩
  · rfl
  · rw [List.append_assoc, List.singleton_append, completeItems_append_newline,
      completeItems_concat_newline]

theorem completeItems_of_notMem (hline : '\n' ∉ line) :
    completeItems line = (pageItem? line).toList := by
  rw [completeItems_eq, split_of_notMem hline]
  cases h : pageItem? line <;> simp [h]

theorem isStem_append_renderTarget (head target : Text) :
    IsStem ')' (head ++ renderTarget target) :=
  Or.inr ⟨head ++ ']' :: '(' :: target, by simp [renderTarget]⟩

theorem splitLast_of_item (h : itemTarget? line = some target) :
    ∃ head blanks, ']' ∉ head ∧ splitLast ')' line = (head ++ renderTarget target, blanks) ∧
      ∀ c ∈ blanks, isBlank c = true := by
  obtain ⟨head, blanks, hhead, -, rfl, hblanks⟩ := itemTarget?_eq_some_iff.1 h
  have hparen : ')' ∉ blanks := fun hmem => absurd (hblanks _ hmem) (by decide)
  rw [← List.append_assoc]
  exact ⟨head, blanks, hhead.notMem,
    splitLast_append (isStem_append_renderTarget head target) hparen, hblanks⟩

theorem not_leavesOpen_of_item (h : itemTarget? line = some target) : ¬LeavesOpen line := by
  obtain ⟨head, blanks, -, hcut, hblanks⟩ := splitLast_of_item h
  rw [LeavesOpen, hcut]
  intro hopen
  exact absurd (hblanks ']' (hopen.subset (by simp))) (by decide)

theorem mem_of_item (h : itemTarget? line = some target) : ')' ∈ line := by
  obtain ⟨head, blanks, -, -, rfl, -⟩ := itemTarget?_eq_some_iff.1 h
  simp [renderTarget]

/-- Behind a bracket the line of an item is none, or an item with another target. -/
theorem itemTarget?_append_ne (hlead : ']' ∈ lead) (h : itemTarget? line = some target) :
    itemTarget? (lead ++ line) ≠ some target := by
  intro hlonger
  obtain ⟨head, blanks, -, hcut, -⟩ := splitLast_of_item h
  obtain ⟨head', blanks', hhead', hcut', -⟩ := splitLast_of_item hlonger
  obtain ⟨rfl, -, hlast⟩ := splitLast_eq_iff.1 hcut
  have hlong : splitLast ')' (lead ++ (head ++ renderTarget target ++ blanks)) =
      (lead ++ head ++ renderTarget target, blanks) := by
    rw [← List.append_assoc, ← List.append_assoc]
    exact splitLast_append (isStem_append_renderTarget _ target) hlast
  rw [hcut', Prod.mk.injEq] at hlong
  obtain rfl := List.append_cancel_right hlong.1
  exact hhead' (List.mem_append_left head hlead)

/-! ## The entries of a page, line by line -/

/-- The text can follow a line: it is empty or starts with a line feed. -/
def FollowsLine (back : Text) : Prop := back = [] ∨ ∃ rest, back = '\n' :: rest

/-- The page has this line between these two parts. -/
structure IsLine (page front line back : Text) : Prop where
  eq : page = front ++ (line ++ back)
  start : IsStem '\n' front
  whole : '\n' ∉ line
  stop : FollowsLine back

theorem not_leavesOpen_newline : ¬LeavesOpen ['\n'] := by decide

theorem entries_concat_newline (page : Text) : entries (page ++ ['\n']) = entries page := by
  rw [entries_eq_completeItems, joinTargets_concat_newline, completeItems_concat_newline,
    entries_eq_completeItems]

/-- **Behind closed text the index goes on** as if nothing were in front. -/
theorem entries_append_of_closed (hfront : IsStem '\n' front) (hclosed : ¬LeavesOpen front)
    (r : Text) : entries (front ++ r) = entries front ++ entries r := by
  have hlast : front.getLast? ≠ some ']' := by
    rcases hfront with rfl | ⟨t, rfl⟩ <;> simp
  simp only [entries_eq_completeItems, joinTargets_append_of_closed hclosed (Or.inl hlast),
    completeItems_append (isStem_joinTargets hfront)]

theorem joinTargets_line_append (hline : '\n' ∉ line) (hclosed : ¬LeavesOpen line)
    (hback : FollowsLine back) : joinTargets (line ++ back) = line ++ joinTargets back := by
  have hhead : back.head? ≠ some '(' := by
    rcases hback with rfl | ⟨rest, rfl⟩ <;> simp
  rw [joinTargets_append_of_closed hclosed (Or.inr hhead), joinTargets_of_notMem (Or.inl hline)]

theorem completeItems_line_append (hline : '\n' ∉ line) (hback : FollowsLine back) :
    completeItems (line ++ joinTargets back) = (pageItem? line).toList ++ entries back := by
  rw [entries_eq_completeItems, ← completeItems_of_notMem hline]
  rcases hback with rfl | ⟨rest, rfl⟩
  · rw [show joinTargets [] = [] from rfl, List.append_nil]
    exact (List.append_nil _).symm
  · have hnewline : joinTargets ('\n' :: rest) = '\n' :: joinTargets rest :=
      joinTargets_append_of_closed not_leavesOpen_newline (Or.inl (by decide))
    rw [hnewline, completeItems_append_newline]
    exact congrArg _ (completeItems_append_newline [] (joinTargets rest)).symm

theorem entries_line_append (hline : '\n' ∉ line) (hclosed : ¬LeavesOpen line)
    (hback : FollowsLine back) :
    entries (line ++ back) = (pageItem? line).toList ++ entries back := by
  rw [entries_eq_completeItems, joinTargets_line_append hline hclosed hback,
    completeItems_line_append hline hback]

/-! ## Behind an open link -/

/-- Where a link is left open, no line is an item any more. -/
theorem completeItems_open (ha : '\n' ∉ a) (hb : ')' ∉ b) :
    completeItems (a ++ ']' :: '(' :: b) = [] := by
  have hnone : ∀ piece, LeavesOpen piece ∨ ')' ∉ piece → pageItem? piece = none := by
    intro piece hpiece
    rw [Option.eq_none_iff_forall_ne_some]
    intro target hitem
    obtain ⟨hitem, -⟩ := Option.filter_eq_some_iff.1 hitem
    exact hpiece.elim (not_leavesOpen_of_item hitem) fun hparen => hparen (mem_of_item hitem)
  have hhead : '\n' ∉ a ++ [']', '('] := by simp [ha]
  have happend : a ++ ']' :: '(' :: b = a ++ [']', '('] ++ b := by simp
  obtain ⟨first, rest, hcut⟩ := List.exists_cons_of_ne_nil (split_ne_nil '\n' b)
  have hparen : ∀ piece ∈ first :: rest, ')' ∉ piece := fun piece hpiece hmem =>
    hb (subset_of_mem_split (hcut ▸ hpiece) hmem)
  rw [completeItems_eq, happend, split_append_of_notMem hhead, hcut, List.modifyHead_cons,
    List.filterMap_eq_nil_iff, List.forall_mem_cons]
  refine ⟨hnone _ (Or.inl (leavesOpen_iff.2 ⟨a, first, by simp, hparen first (by simp)⟩)), ?_⟩
  exact fun piece hpiece => hnone _ (Or.inr (hparen piece (List.mem_cons_of_mem _ hpiece)))

/-- **Open text** has lines that are read already, and a line that the link is open in. -/
theorem exists_of_leavesOpen (h : LeavesOpen front) :
    ∃ s a b, IsStem '\n' s ∧ '\n' ∉ a ∧ ')' ∉ b ∧ entries front = completeItems s ∧
      ∀ r, joinTargets (front ++ r) = s ++ (a ++ joinTargets (']' :: '(' :: (b ++ r))) := by
  obtain ⟨closed, b, rfl, hb, hclosed⟩ := h.exists_first
  obtain ⟨s, a, hs, ha, hjoin⟩ := exists_eq_stem_append '\n' (joinTargets closed)
  have hall : ∀ r, joinTargets (closed ++ ']' :: '(' :: b ++ r) =
      s ++ (a ++ joinTargets (']' :: '(' :: (b ++ r))) := by
    intro r
    rw [List.append_assoc, joinTargets_append_of_closed hclosed (Or.inr (by simp)), hjoin,
      List.append_assoc]
    rfl
  refine ⟨s, a, b, hs, ha, hb, ?_, hall⟩
  have hlink : joinTargets (']' :: '(' :: b) = ']' :: '(' :: b :=
    joinTargets_of_notMem (Or.inr (by simp [hb]))
  have hfront : joinTargets (closed ++ ']' :: '(' :: b) = s ++ (a ++ ']' :: '(' :: b) := by
    simpa [hlink] using hall []
  rw [entries_eq_completeItems, hfront, completeItems_append hs, completeItems_open ha hb,
    List.append_nil]

/-- **Behind an open link a line is read as the end of a longer one**, if it closes the link. -/
theorem entries_append_of_leavesOpen (hopen : LeavesOpen front) (hline : '\n' ∉ line)
    (hclosed : ¬LeavesOpen line) (hparen : ')' ∈ line) (hback : FollowsLine back) :
    ∃ lead, ']' ∈ lead ∧ entries (front ++ (line ++ back)) =
      entries front ++ ((pageItem? (lead ++ line)).toList ++ entries back) := by
  obtain ⟨s, a, b, hs, ha, hb, hfront, hjoin⟩ := exists_of_leavesOpen hopen
  obtain ⟨u, v, rfl, hu⟩ := List.eq_append_cons_of_mem hparen
  rw [List.mem_append, List.mem_cons, not_or, not_or] at hline
  have hbehind : ¬LeavesOpen v := fun h => hclosed (by simpa using h.append_left (u ++ [')']))
  have hlead : '\n' ∉ a ++ ']' :: '(' :: joined b ++ (u ++ ')' :: v) := by
    simp [ha, notMem_joined, hline]
  -- The open target ends in the line, and the rest of the line is left alone.
  have hclose : joinTargets (']' :: '(' :: (b ++ (u ++ ')' :: v ++ back))) =
      ']' :: '(' :: (joined b ++ (u ++ ')' :: v ++ joinTargets back)) := by
    calc
      joinTargets (']' :: '(' :: (b ++ (u ++ ')' :: v ++ back))) =
          joinTargets (']' :: '(' :: (b ++ u ++ ')' :: (v ++ back))) := by simp
      _ = ']' :: '(' :: (joined (b ++ u) ++ ')' :: joinTargets (v ++ back)) :=
        joinTargets_open (by simp [hb, hu]) (v ++ back)
      _ = _ := by
        rw [joined_append, joined_of_notMem hline.1,
          joinTargets_line_append hline.2.2 hbehind hback]
        simp
  refine ⟨a ++ ']' :: '(' :: joined b, by simp, ?_⟩
  rw [hfront, entries_eq_completeItems, hjoin, hclose, completeItems_append hs,
    ← completeItems_line_append hlead hback]
  simp

/-- Lines that are added to a page take no entry away. -/
theorem entries_prefix_append (hfront : IsStem '\n' front) (r : Text) :
    entries front <+: entries (front ++ r) := by
  by_cases hopen : LeavesOpen front
  · obtain ⟨s, a, b, hs, -, -, hentries, hjoin⟩ := exists_of_leavesOpen hopen
    rw [hentries, entries_eq_completeItems, hjoin, completeItems_append hs]
    exact List.prefix_append _ _
  · rw [entries_append_of_closed hfront hopen]
    exact List.prefix_append _ _

/-! ## The complete items of a page -/

/-- Lines with the text in front of each. -/
def cutsFrom : Text → List Text → List (Text × Text)
  | _, [] => []
  | front, line :: lines => (front, line) :: cutsFrom (front ++ (line ++ ['\n'])) lines

/-- The lines of a page, each with the text in front of it. -/
def cuts (page : Text) : List (Text × Text) := cutsFrom [] (split '\n' page)

/-- The item that a line is, unless a link is left open in front of it. -/
def clearItem? (cut : Text × Text) : Option Text :=
  if LeavesOpen cut.1 then none else pageItem? cut.2

/-- The targets of the complete items with no link left open in front of them. -/
def clearItems (page : Text) : List Text := (cuts page).filterMap clearItem?

theorem cutsFrom_concat (front : Text) (lines : List Text) (line : Text) :
    cutsFrom front (lines ++ [line]) =
      cutsFrom front lines ++ [(front ++ lines.flatMap (· ++ ['\n']), line)] := by
  induction lines generalizing front with
  | nil => simp [cutsFrom]
  | cons first lines ih => simp [cutsFrom, ih]

theorem map_snd_cutsFrom (front : Text) (lines : List Text) :
    (cutsFrom front lines).map Prod.snd = lines := by
  induction lines generalizing front with
  | nil => rfl
  | cons line lines ih => rw [cutsFrom, List.map_cons, ih]

/-- One line more, and one entry more if it is an item and no link is left open. -/
theorem clearItem?_sublist (hfront : IsStem '\n' front) (hline : '\n' ∉ line) :
    (entries front ++ (clearItem? (front, line)).toList).Sublist
      (entries (front ++ (line ++ ['\n']))) := by
  by_cases hopen : LeavesOpen front
  · rw [clearItem?, if_pos hopen]
    simpa using (entries_prefix_append hfront (line ++ ['\n'])).sublist
  · rw [clearItem?, if_neg hopen, entries_append_of_closed hfront hopen, entries_concat_newline,
      entries_eq_completeItems line, joinTargets_of_notMem (Or.inl hline),
      completeItems_of_notMem hline]

theorem clearItems_sublist_of_lines {lines : List Text} (hlines : ∀ line ∈ lines, '\n' ∉ line) :
    ((cutsFrom [] lines).filterMap clearItem?).Sublist
      (entries (lines.flatMap (· ++ ['\n']))) := by
  induction lines using List.reverseRecOn with
  | nil => exact List.nil_sublist _
  | append_singleton lines line ih =>
    have hfront : IsStem '\n' (lines.flatMap (· ++ ['\n'])) := isStem_flatMap lines
    have hitems := ih fun line' h => hlines line' (List.mem_append_left _ h)
    have hstep := clearItem?_sublist hfront (hlines line (by simp))
    rw [cutsFrom_concat, List.filterMap_append, List.flatMap_append, List.flatMap_singleton]
    refine ((hitems.append_right _).trans ?_).trans hstep
    cases h : clearItem? (lines.flatMap (· ++ ['\n']), line) <;> simp [h]

/-- **Complete items in the clear are listed**, whatever else the page contains. -/
theorem clearItems_sublist (page : Text) : (clearItems page).Sublist (entries page) := by
  have hlines : page ++ ['\n'] = (split '\n' page).flatMap (· ++ ['\n']) := by
    obtain ⟨lines, last, hsplit⟩ :=
      (List.eq_nil_or_concat' (split '\n' page)).resolve_left (split_ne_nil '\n' page)
    calc
      page ++ ['\n'] = join ['\n'] (split '\n' page) ++ ['\n'] := by rw [join_split]
      _ = _ := by
        rw [hsplit, join_concat]
        simp
  rw [← entries_concat_newline, hlines]
  exact clearItems_sublist_of_lines fun line h => notMem_of_mem_split h

theorem completeItems_eq_clearItems
    (h : ∀ cut ∈ cuts page, LeavesOpen cut.1 → pageItem? cut.2 = none) :
    completeItems page = clearItems page := by
  calc
    completeItems page = ((cuts page).map Prod.snd).filterMap pageItem? := by
      rw [completeItems_eq, cuts, map_snd_cutsFrom]
    _ = (cuts page).filterMap fun cut => pageItem? cut.2 := List.filterMap_map
    _ = clearItems page := by
      refine List.filterMap_congr fun cut hcut => ?_
      by_cases hopen : LeavesOpen cut.1
      · rw [clearItem?, if_pos hopen, h cut hcut hopen]
      · rw [clearItem?, if_neg hopen]

/-- **Which complete items an index lists.** Those that have no link left open in front of them are
listed, in order; so all are, unless one stands behind an open link. In the place of a line that is
a complete item stands its target if no link is left open in front of it, and otherwise nothing or
another target: that of a longer line which ends with this one. -/
theorem entries_of_completeItems (page : Text) :
    (clearItems page).Sublist (entries page) ∧
    ((∀ cut ∈ cuts page, LeavesOpen cut.1 → pageItem? cut.2 = none) →
      (completeItems page).Sublist (entries page)) ∧
    ∀ front line back target, IsLine page front line back → pageItem? line = some target →
      (¬LeavesOpen front → entries page = entries front ++ target :: entries back) ∧
      (LeavesOpen front → ∃ lead, pageItem? (lead ++ line) ≠ some target ∧
        entries page = entries front ++ ((pageItem? (lead ++ line)).toList ++ entries back)) := by
  refine ⟨clearItems_sublist page,
    fun h => completeItems_eq_clearItems h ▸ clearItems_sublist page, ?_⟩
  rintro front line back target ⟨rfl, hfront, hline, hback⟩ hitem
  obtain ⟨hread, -⟩ := Option.filter_eq_some_iff.1 hitem
  have hclosed : ¬LeavesOpen line := not_leavesOpen_of_item hread
  constructor
  · intro hopen
    rw [entries_append_of_closed hfront hopen, entries_line_append hline hclosed hback, hitem]
    rfl
  · intro hopen
    obtain ⟨lead, hlead, hentries⟩ :=
      entries_append_of_leavesOpen hopen hline hclosed (mem_of_item hread) hback
    refine ⟨lead, fun hlonger => ?_, hentries⟩
    exact itemTarget?_append_ne hlead hread (Option.filter_eq_some_iff.1 hlonger).1

/-- A remark with a bracket that looks like the start of a target, and two items. -/
def remarked : Text := "Call `a[0](x` first.\n- [A](a.md)\n- [B](b.md)\n".toList

/-- An index with a broken target between two items. -/
def brokenIndex : Text := "- [A](a.md)\n- [B](\nb.md)\n- [C](c.md)\n".toList

theorem entries_around_remark :
    ["a.md".toList, "c.md".toList].Sublist (entries brokenIndex) ∧
      (∃ lead, pageItem? (lead ++ "- [A](a.md)".toList) ≠ some "a.md".toList ∧
        entries remarked = (pageItem? (lead ++ "- [A](a.md)".toList)).toList ++ ["b.md".toList]) ∧
      entries remarked =
        entries "Call `a[0](x` first.\n- [A](a.md)\n".toList ++ ["b.md".toList] := by
  obtain ⟨-, hlisted, -⟩ := entries_of_completeItems brokenIndex
  obtain ⟨-, -, hplace⟩ := entries_of_completeItems remarked
  have hfirst : IsLine remarked "Call `a[0](x` first.\n".toList "- [A](a.md)".toList
      "\n- [B](b.md)\n".toList :=
    ⟨by decide +kernel, Or.inr ⟨"Call `a[0](x` first.".toList, by decide +kernel⟩,
      by decide +kernel, Or.inr ⟨"- [B](b.md)\n".toList, by decide +kernel⟩⟩
  have hsecond : IsLine remarked "Call `a[0](x` first.\n- [A](a.md)\n".toList "- [B](b.md)".toList
      ['\n'] :=
    ⟨by decide +kernel, Or.inr ⟨"Call `a[0](x` first.\n- [A](a.md)".toList, by decide +kernel⟩,
      by decide +kernel, Or.inr ⟨[], rfl⟩⟩
  have hcomplete : completeItems brokenIndex = ["a.md".toList, "c.md".toList] := by decide +kernel
  refine ⟨hcomplete ▸ hlisted (by decide +kernel), ?_, ?_⟩
  · exact (hplace _ _ _ "a.md".toList hfirst (by decide +kernel)).2 (by decide +kernel)
  · exact (hplace _ _ _ "b.md".toList hsecond (by decide +kernel)).1 (by decide +kernel)

/-- A complete item is missing from the index, and the number of the next page is one too low. -/
theorem remarked_loses_item :
    completeItems remarked = ["a.md".toList, "b.md".toList] ∧
      entries remarked = ["b.md".toList] ∧
      ¬(completeItems remarked).Sublist (entries remarked) := by
  decide +kernel

end WikiTidy.Numbering
