import WikiTidy.Proofs.Numbering.LinkTargets

/-!
# The items of an index are links

An index is read line by line, after its broken targets are joined. Links are found in the page as
it stands, broken or not. This module ties the two readings together.

**Lines of pieces** (`linkLines`). The search for links is cut where a line feed is passed by, so a
line feed in a target ends no line. An item is such a line with one link in it (`IsItem`), and its
target is read as it is written, with its line feeds (`sources`).

**Theorem (`entries_mapTargets`).** Whatever becomes of the targets of a page, its entries are what
becomes of the targets of its items, in their order, as far as these lead to pages.

A line of a page with new targets is the old line with new targets, because no replacement makes a
new link (`linkTarget_mapTargets`). So an item cannot come from a `](` that was no link before.
-/

namespace WikiTidy

open Text

/-! ## Lines of pieces -/

namespace Text

variable {α : Type}

/-- The piece is a line feed that was passed by. -/
def Piece.isFeed : Piece α → Bool
  | .plain c => c == '\n'
  | .hit _ _ => false

/-- **Lines of a text are lines of its pieces**, when no occurrence is written with a line feed. -/
theorem split_flatMap_render {w : α → Text} {pieces : List (Piece α)}
    (hw : ∀ a s, Piece.hit a s ∈ pieces → '\n' ∉ w a) :
    split '\n' (pieces.flatMap (Piece.render w)) =
      (pieces.splitOnP Piece.isFeed).map (List.flatMap (Piece.render w)) := by
  induction pieces with
  | nil => rfl
  | cons piece pieces ih =>
    replace ih := ih fun a s h => hw a s (List.mem_cons_of_mem _ h)
    rw [List.flatMap_cons, List.splitOnP_cons_eq_if_modifyHead]
    by_cases hfeed : piece.isFeed = true
    · obtain rfl : piece = .plain '\n' := by
        cases piece with
        | plain c => simpa [Piece.isFeed] using hfeed
        | hit a s => simp [Piece.isFeed] at hfeed
      simp [Piece.render, Piece.isFeed, split, ih]
    · have hpiece : '\n' ∉ piece.render w := by
        cases piece with
        | plain c =>
          intro hmem
          obtain rfl : '\n' = c := List.mem_singleton.1 hmem
          exact hfeed rfl
        | hit a s => exact hw a s List.mem_cons_self
      obtain ⟨line, lines, hcut⟩ :=
        List.exists_cons_of_ne_nil (List.splitOnP_ne_nil Piece.isFeed pieces)
      rw [split_append_of_notMem hpiece, ih, if_neg hfeed, hcut]
      rfl

theorem prefix_of_splitOnP_eq_cons {pieces line : List (Piece α)} {lines : List (List (Piece α))}
    (h : pieces.splitOnP Piece.isFeed = line :: lines) : line <+: pieces := by
  induction pieces generalizing line lines with
  | nil =>
    obtain ⟨rfl, -⟩ := List.cons.inj h
    exact List.prefix_refl []
  | cons piece pieces ih =>
    obtain ⟨first, rest, hcut⟩ :=
      List.exists_cons_of_ne_nil (List.splitOnP_ne_nil Piece.isFeed pieces)
    rw [List.splitOnP_cons_eq_if_modifyHead, hcut] at h
    split at h
    · obtain ⟨rfl, -⟩ := List.cons.inj h
      exact List.nil_prefix
    · obtain ⟨rfl, -⟩ := List.cons.inj h
      exact (List.prefix_cons_inj piece).2 (ih hcut)

/-- A line stands somewhere among the pieces. -/
theorem infix_of_mem_splitOnP {pieces line : List (Piece α)}
    (h : line ∈ pieces.splitOnP Piece.isFeed) : line <:+: pieces := by
  induction pieces generalizing line with
  | nil =>
    obtain rfl : line = [] := by simpa [List.splitOnP_nil] using h
    exact List.nil_infix
  | cons piece pieces ih =>
    obtain ⟨first, rest, hcut⟩ :=
      List.exists_cons_of_ne_nil (List.splitOnP_ne_nil Piece.isFeed pieces)
    rw [List.splitOnP_cons_eq_if_modifyHead] at h
    split at h
    · rcases List.mem_cons.1 h with rfl | h
      · exact List.nil_infix
      · exact List.infix_cons (ih h)
    · rw [hcut, List.modifyHead_cons] at h
      rcases List.mem_cons.1 h with rfl | h
      · exact ((List.prefix_cons_inj piece).2 (prefix_of_splitOnP_eq_cons hcut)).isInfix
      · exact List.infix_cons (ih (hcut ▸ List.mem_cons_of_mem _ h))

end Text

namespace Numbering

variable {f g : Text → Text} {page s line target : Text} {pieces : List (Piece Text)}

/-! ## What an item looks like -/

/-- What stands in front of the target of an item: a dash and a title. -/
def IsItemHead (head : Text) : Prop :=
  ∃ indent gap title, head = indent ++ '-' :: (gap ++ '[' :: title) ∧
    (∀ c ∈ indent, isBlank c = true) ∧ (gap ≠ [] ∧ ∀ c ∈ gap, isBlank c = true) ∧
    (title ≠ [] ∧ ']' ∉ title)

theorem IsItemHead.notMem {head : Text} (h : IsItemHead head) : ']' ∉ head := by
  obtain ⟨indent, gap, title, rfl, hindent, ⟨-, hgap⟩, -, htitle⟩ := h
  have hblank : ∀ blanks : Text, (∀ c ∈ blanks, isBlank c = true) → ']' ∉ blanks := by
    intro blanks hall hmem
    exact absurd (hall _ hmem) (by decide)
  simp [hblank indent hindent, hblank gap hgap, htitle]

theorem renderTarget_append (target r : Text) :
    renderTarget target ++ r = ']' :: '(' :: (target ++ ')' :: r) := by
  simp [renderTarget]

/-- **An item** is a dash, a title, a target in parentheses and nothing else but blanks. -/
theorem itemTarget?_eq_some_iff :
    itemTarget? line = some target ↔ ∃ head back, IsItemHead head ∧ IsTarget target ∧
      line = head ++ (renderTarget target ++ back) ∧ ∀ c ∈ back, isBlank c = true := by
  constructor
  · intro h
    have htarget : IsTarget target := itemTarget?_eq_some h
    simp only [itemTarget?, Option.bind_eq_bind, Option.bind_eq_some_iff,
      after?_eq_some_iff] at h
    obtain ⟨s₁, h₁, ⟨gap, s₂⟩, h₂, s₃, h₃, ⟨title, s₄⟩, h₄, s₅, h₅, ⟨t, s₆⟩, h₆, s₇, h₇, ⟨⟩, h₈, ht⟩
      := h
    obtain rfl : t = target := by simpa using ht
    obtain ⟨rfl, hgap, hgapAll, -⟩ := run?_eq_some h₂
    obtain ⟨rfl, htitle, htitleAll, -⟩ := run?_eq_some h₄
    obtain ⟨rfl, -, -, -⟩ := run?_eq_some h₆
    dsimp only at h₃ h₅ h₇
    refine ⟨line.takeWhile isBlank ++ '-' :: (gap ++ '[' :: title), s₇,
      ⟨_, gap, title, rfl, fun c hc => List.all_eq_true.1 List.all_takeWhile c hc,
        ⟨hgap, hgapAll⟩, htitle, fun hmem => by simpa using htitleAll _ hmem⟩, htarget, ?_, ?_⟩
    · calc
        line = line.takeWhile isBlank ++ trimStart line := List.takeWhile_append_dropWhile.symm
        _ = _ := by
          rw [h₁, h₃, h₅, h₇]
          simp [renderTarget]
    · simpa [guard] using h₈
  · rintro ⟨-, back, ⟨indent, gap, title, rfl, hindent, ⟨hgap, hgapAll⟩, htitle, hbracket⟩,
      ⟨htarget, hparen⟩, rfl, hback⟩
    have hline : indent ++ '-' :: (gap ++ '[' :: title) ++ (renderTarget target ++ back) =
        indent ++ '-' :: (gap ++ '[' :: (title ++ ']' :: '(' :: (target ++ ')' :: back))) := by
      simp [renderTarget]
    have hstart : ∀ s, trimStart (indent ++ '-' :: s) = '-' :: s :=
      fun s => dropWhile_append_stop hindent (by simp; decide)
    have hgapRun : ∀ s, run? isBlank (gap ++ '[' :: s) = some (gap, '[' :: s) :=
      fun s => run?_append hgap hgapAll (by simp; decide)
    have htitleRun : ∀ s, run? (· != ']') (title ++ ']' :: s) = some (title, ']' :: s) :=
      fun s => run?_append htitle (all_ne_of_notMem hbracket) (by simp)
    have htargetRun : run? (· != ')') (target ++ ')' :: back) = some (target, ')' :: back) :=
      run?_append htarget (all_ne_of_notMem hparen) (by simp)
    have hguard : guard (back.all isBlank = true) = some () := if_pos (List.all_eq_true.2 hback)
    rw [hline]
    simp only [itemTarget?, Option.bind_eq_bind, Option.bind_eq_some_iff, after?_eq_some_iff]
    exact ⟨_, hstart _, _, hgapRun _, _, rfl, _, htitleRun _, _, rfl, _, htargetRun, _, rfl, (),
      hguard, rfl⟩

/-- A blank at the end of a line changes nothing. -/
theorem itemTarget?_append_blank {c : Char} (hc : isBlank c = true) (line : Text) :
    itemTarget? (line ++ [c]) = itemTarget? line := by
  refine Option.ext fun target => ?_
  rw [itemTarget?_eq_some_iff, itemTarget?_eq_some_iff]
  constructor
  · rintro ⟨head, back, hhead, htarget, hline, hback⟩
    rcases List.eq_nil_or_concat' back with rfl | ⟨back, c', rfl⟩
    · rw [List.append_nil, renderTarget, ← List.append_assoc] at hline
      obtain rfl : c = ')' := by simpa using (List.append_inj' hline rfl).2
      exact absurd hc (by decide)
    · refine ⟨head, back, hhead, htarget, ?_, fun c h => hback c (List.mem_append_left _ h)⟩
      rw [← List.append_assoc, ← List.append_assoc] at hline
      rw [← List.append_assoc]
      exact (List.append_inj' hline rfl).1
  · rintro ⟨head, back, hhead, htarget, rfl, hback⟩
    refine ⟨head, back ++ [c], hhead, htarget, by simp, fun d hd => ?_⟩
    rcases List.mem_append.1 hd with hd | hd
    · exact hback d hd
    · rwa [List.mem_singleton.1 hd]

theorem itemTarget?_chomp (line : Text) : itemTarget? (Lines.chomp line) = itemTarget? line := by
  rw [Lines.chomp]
  split
  · next hlast =>
    obtain ⟨start, rfl⟩ := List.getLast?_eq_some_iff.1 hlast
    rw [List.dropLast_concat, itemTarget?_append_blank (by decide)]
  · rfl

/-- Neither a carriage return nor an empty last line matters to the items. -/
theorem filterMap_itemTarget?_ofText (page : Text) :
    (Lines.ofText page).filterMap itemTarget? = (split '\n' page).filterMap itemTarget? := by
  have hchomp : itemTarget? ∘ Lines.chomp = itemTarget? := funext itemTarget?_chomp
  rw [Lines.ofText, List.filterMap_map, hchomp, Lines.dropEmptyLast]
  split
  · next hlast =>
    obtain ⟨start, hsplit⟩ := List.getLast?_eq_some_iff.1 hlast
    rw [hsplit, List.dropLast_concat, List.filterMap_append]
    exact (List.append_nil _).symm
  · rfl

/-! ## Items of a page -/

/-- The lines of a page, as they are searched for links: a line feed in a target ends no line. -/
def linkLines (page : Text) : List (List (Piece Text)) :=
  (scan linkTarget page).splitOnP Piece.isFeed

/-- The targets of the items of a page, as they are written. -/
def sources (page : Text) : List Text :=
  (linkLines page).filterMap fun line => itemTarget? (line.flatMap Piece.source)

/-- A line with one link in it, which is the target of an item. -/
def IsItem (line : List (Piece Text)) (target : Text) : Prop :=
  ∃ head back : Text, IsItemHead head ∧ (∀ c ∈ back, isBlank c = true) ∧
    line = head.map .plain ++ .hit target (renderTarget target) :: back.map .plain

/-- Pieces as they are written when every target is replaced. -/
def render (f : Text → Text) (pieces : List (Piece Text)) : Text :=
  pieces.flatMap (Piece.render fun target => renderTarget (f target))

@[simp] theorem render_nil : render f [] = [] := rfl

@[simp] theorem render_plain (c : Char) :
    render f (.plain c :: pieces) = c :: render f pieces := rfl

@[simp] theorem render_hit (target source : Text) :
    render f (.hit target source :: pieces) =
      ']' :: '(' :: (f target ++ ')' :: render f pieces) := by
  simp [render, Piece.render, renderTarget]

@[simp] theorem render_append (front back : List (Piece Text)) :
    render f (front ++ back) = render f front ++ render f back :=
  List.flatMap_append

@[simp] theorem render_map_plain (s : Text) : render f (s.map .plain) = s := by
  induction s with
  | nil => rfl
  | cons c s ih => rw [List.map_cons, render_plain, ih]

/-- Text in front of the first bracket has no link in it. -/
theorem exists_eq_map_plain_append {head r : Text} (hhead : ']' ∉ head)
    (h : render f pieces = head ++ r) :
    ∃ back, pieces = head.map .plain ++ back ∧ render f back = r := by
  induction head generalizing pieces with
  | nil => exact ⟨pieces, rfl, h⟩
  | cons c head ih =>
    simp only [List.mem_cons, not_or] at hhead
    match pieces with
    | [] => cases h
    | .hit t s :: pieces =>
      rw [render_hit] at h
      exact absurd (List.cons.inj h).1 hhead.1
    | .plain d :: pieces =>
      obtain ⟨rfl, htail⟩ := List.cons.inj h
      obtain ⟨back, rfl, hback⟩ := ih hhead.2 htail
      exact ⟨back, rfl, hback⟩

theorem eq_nil_of_render_eq_nil (h : render f pieces = []) : pieces = [] := by
  match pieces with
  | [] => rfl
  | .plain c :: pieces => cases h
  | .hit t s :: pieces => simp at h

/-- **An item of a page with new targets is an item of the page**, with a new target. -/
theorem itemTarget?_render_eq_some_iff (hf : ∀ t, IsTarget t → ')' ∉ f t)
    {line back : List (Piece Text)} (hscan : scan linkTarget s = line ++ back) :
    itemTarget? (render f line) = some target ↔
      ∃ t, IsItem line t ∧ target = f t ∧ target ≠ [] := by
  constructor
  · intro h
    obtain ⟨head, blanks, hhead, htarget, hline, hblanks⟩ := itemTarget?_eq_some_iff.1 h
    obtain ⟨tail, rfl, htail⟩ := exists_eq_map_plain_append hhead.notMem hline
    rw [List.append_assoc] at hscan
    obtain ⟨s', -, hs'⟩ := linkTarget_prints.isLocal.exists_of_scan_eq_append hscan
    rw [renderTarget_append] at htail
    match tail with
    | [] => cases htail
    | .hit t source :: tail =>
      have hmem : .hit t source ∈ scan linkTarget s' := hs' ▸ List.mem_cons_self
      obtain ⟨ht, rfl⟩ := linkTarget_prints.of_hit_mem hmem
      rw [render_hit] at htail
      obtain ⟨rfl, hrest⟩ :=
        append_sep_inj (hf t ht) htarget.2 (List.cons.inj (List.cons.inj htail).2).2
      have hbracket : ']' ∉ blanks := fun hmem => absurd (hblanks _ hmem) (by decide)
      obtain ⟨rest, rfl, hnil⟩ :=
        exists_eq_map_plain_append hbracket (hrest.trans (List.append_nil blanks).symm)
      rw [eq_nil_of_render_eq_nil hnil, List.append_nil]
      exact ⟨t, ⟨head, blanks, hhead, hblanks, rfl⟩, rfl, htarget.1⟩
    | .plain c :: tail =>
      -- A bracket that is no link of the page is none afterwards.
      obtain ⟨rfl, hopen⟩ := List.cons.inj htail
      obtain ⟨r, rfl, hnone, hr⟩ := linkTarget_prints.isLocal.cons_of_scan_eq_plain hs'
      have hmap : mapTargets f r = '(' :: (target ++ ')' :: (blanks ++ render f back)) := by
        calc
          mapTargets f r = render f (tail ++ back) := congrArg (render f) hr
          _ = render f tail ++ render f back := render_append tail back
          _ = _ := by rw [show render f tail = _ from hopen]; simp
      have hlink : linkTarget true (']' :: mapTargets f r) =
          some (target, blanks ++ render f back) :=
        linkTarget_eq_some_iff.2 ⟨htarget, by rw [hmap, renderTarget_append]⟩
      rw [linkTarget_mapTargets hnone] at hlink
      cases hlink
  · rintro ⟨t, ⟨head, blanks, hhead, hblanks, rfl⟩, rfl, hne⟩
    have hmem : .hit t (renderTarget t) ∈ scan linkTarget s := hscan ▸ by simp
    obtain ⟨ht, -⟩ := linkTarget_prints.of_hit_mem hmem
    refine itemTarget?_eq_some_iff.2 ⟨head, blanks, hhead, ⟨hne, hf t ht⟩, ?_, hblanks⟩
    simp [renderTarget]

theorem exists_scan_of_mem_linkLines {line : List (Piece Text)} (h : line ∈ linkLines page) :
    ∃ s back, scan linkTarget s = line ++ back := by
  obtain ⟨front, back, heq⟩ := infix_of_mem_splitOnP h
  rw [List.append_assoc] at heq
  obtain ⟨s, -, hs⟩ := linkTarget_prints.isLocal.exists_of_scan_eq_append heq.symm
  exact ⟨s, back, hs⟩

/-- A line of pieces is written as it was found. -/
theorem itemTarget?_source_eq_some_iff {line back : List (Piece Text)}
    (hscan : scan linkTarget s = line ++ back) :
    itemTarget? (line.flatMap Piece.source) = some target ↔ IsItem line target := by
  have hsource : line.flatMap Piece.source = render id line := by
    refine List.flatMap_congr fun piece hpiece => ?_
    cases piece with
    | plain c => rfl
    | hit t source =>
      have hmem : .hit t source ∈ scan linkTarget s := hscan ▸ List.mem_append_left _ hpiece
      exact (linkTarget_prints.of_hit_mem hmem).2
  have hid : ∀ t, IsTarget t → ')' ∉ id t := fun _ ht => ht.2
  rw [hsource, itemTarget?_render_eq_some_iff hid hscan]
  constructor
  · rintro ⟨t, hitem, rfl, -⟩
    exact hitem
  · rintro ⟨head, blanks, hhead, hblanks, rfl⟩
    have hmem : .hit target (renderTarget target) ∈ scan linkTarget s := hscan ▸ by simp
    exact ⟨target, ⟨head, blanks, hhead, hblanks, rfl⟩, rfl,
      (linkTarget_prints.of_hit_mem hmem).1.1⟩

/-- **The items of a page with new targets** are its items with new targets, line by line. -/
theorem filter_itemTarget?_render (hf : ∀ t, IsTarget t → ')' ∉ f t)
    {line : List (Piece Text)} (h : line ∈ linkLines page) :
    (itemTarget? (render f line)).filter isLocalPage =
      ((itemTarget? (line.flatMap Piece.source)).map f).filter isLocalPage := by
  obtain ⟨s, back, hscan⟩ := exists_scan_of_mem_linkLines h
  refine Option.ext fun target => ?_
  simp only [Option.filter_eq_some_iff, Option.map_eq_some_iff,
    itemTarget?_render_eq_some_iff hf hscan, itemTarget?_source_eq_some_iff hscan]
  constructor
  · rintro ⟨⟨t, hitem, rfl, -⟩, hlocal⟩
    exact ⟨⟨t, hitem, rfl⟩, hlocal⟩
  · rintro ⟨⟨t, hitem, rfl⟩, hlocal⟩
    refine ⟨⟨t, hitem, rfl, fun hnil => ?_⟩, hlocal⟩
    rw [hnil] at hlocal
    exact absurd hlocal (by decide)

/-! ## Broken targets -/

/-- A target without the line feeds that break it. -/
def joined (target : Text) : Text := target.filter (· != '\n')

theorem notMem_joined (target : Text) : '\n' ∉ joined target := by
  simp [joined]

theorem joined_of_notMem (h : '\n' ∉ target) : joined target = target :=
  List.filter_eq_self.2 (all_ne_of_notMem h)

theorem notMem_joined_of_notMem {c : Char} (h : c ∉ target) : c ∉ joined target :=
  fun hmem => h (List.mem_filter.1 hmem).1

theorem joined_append (a b : Text) : joined (a ++ b) = joined a ++ joined b :=
  List.filter_append a b

theorem joined_numbered (n : Nat) (name : Text) :
    joined (pad n ++ '-' :: name) = pad n ++ '-' :: joined name := by
  rw [joined_append, joined_of_notMem (notMem_pad (by decide))]
  rfl

theorem isStem_joined {stem : Text} (h : IsStem '/' stem) : IsStem '/' (joined stem) := by
  rcases h with rfl | ⟨t, rfl⟩
  · exact Or.inl rfl
  · exact Or.inr ⟨joined t, joined_append t ['/']⟩

theorem brokenTarget_eq_some_iff {b : Bool} {r : Text} :
    brokenTarget b s = some (target, r) ↔
      ('\n' ∈ target ∧ ')' ∉ target) ∧ s = renderTarget target ++ r := by
  constructor
  · intro h
    simp only [brokenTarget, Option.bind_eq_bind, Option.bind_eq_some_iff, after?_eq_some_iff] at h
    obtain ⟨s₁, rfl, ⟨⟩, hbroken, s₂, hclose, h⟩ := h
    obtain ⟨rfl, rfl⟩ : s₁.takeWhile (· != ')') = target ∧ s₂ = r := by simpa using h
    refine ⟨⟨by simpa [guard] using hbroken, fun hmem => ?_⟩, ?_⟩
    · simpa using List.all_eq_true.1 List.all_takeWhile _ hmem
    · rw [renderTarget_append, ← List.singleton_append (l := s₂), ← hclose,
        List.takeWhile_append_dropWhile]
      rfl
  · rintro ⟨⟨hbroken, hparen⟩, rfl⟩
    rw [renderTarget_append]
    simp [brokenTarget, after?, takeWhile_ne_of_notMem hparen, dropWhile_ne_of_notMem hparen,
      hbroken, guard]

theorem brokenTarget_prints :
    Pattern.Prints brokenTarget renderTarget fun target => '\n' ∈ target ∧ ')' ∉ target where
  reads _ _ _ _ := brokenTarget_eq_some_iff
  ne_nil _ := by simp [renderTarget]

theorem brokenTarget_eq_none {t : Text} (hfeed : '\n' ∉ t) (hparen : ')' ∉ t) (r : Text) :
    brokenTarget true (t ++ ')' :: r) = none := by
  rw [Option.eq_none_iff_forall_ne_some]
  rintro ⟨u, r'⟩ hfound
  obtain ⟨⟨hbroken, hparen'⟩, heq⟩ := brokenTarget_eq_some_iff.1 hfound
  rw [renderTarget_append, ← List.cons_append, ← List.cons_append] at heq
  obtain ⟨rfl, -⟩ := append_sep_inj hparen (by simp [hparen']) heq
  exact hfeed (List.mem_cons_of_mem _ (List.mem_cons_of_mem _ hbroken))

/-- Nothing is joined in a target that is not broken. -/
theorem joinTargets_append {t : Text} (hfeed : '\n' ∉ t) (hparen : ')' ∉ t) (r : Text) :
    joinTargets (t ++ ')' :: r) = t ++ ')' :: joinTargets r := by
  have hnone := brokenTarget_eq_none hfeed hparen r
  induction t with
  | nil => exact brokenTarget_prints.replace_cons hnone
  | cons c t ih =>
    simp only [List.mem_cons, not_or] at hfeed hparen
    calc
      joinTargets (c :: (t ++ ')' :: r)) = c :: joinTargets (t ++ ')' :: r) :=
        brokenTarget_prints.replace_cons hnone
      _ = c :: (t ++ ')' :: joinTargets r) :=
        congrArg _ (ih hfeed.2 hparen.2 (brokenTarget_eq_none hfeed.2 hparen.2 r))

/-- **Joining broken targets** is a replacement of link targets. -/
theorem joinTargets_eq (page : Text) : joinTargets page = mapTargets joined page := by
  induction page using linkTarget_prints.induct with
  | nil => rfl
  | plain c s hc ih =>
    have hnone : brokenTarget true (c :: s) = none := by
      rw [Option.eq_none_iff_forall_ne_some]
      rintro ⟨t, r⟩ hfound
      obtain ⟨⟨hbroken, hparen⟩, heq⟩ := brokenTarget_eq_some_iff.1 hfound
      rw [linkTarget_eq_some_iff.2 ⟨⟨List.ne_nil_of_mem hbroken, hparen⟩, heq⟩] at hc
      cases hc
    rw [joinTargets, brokenTarget_prints.replace_cons hnone, ← joinTargets, ih, mapTargets,
      mapTargets, linkTarget_prints.replace_cons hc]
  | token t r ht ih =>
    rw [mapTargets, linkTarget_prints.replace_append ht, ← mapTargets, ← ih]
    by_cases hbroken : '\n' ∈ t
    · exact brokenTarget_prints.replace_append ⟨hbroken, ht.2⟩ r
    · have hopen : ']' :: '(' :: t ++ ')' :: joinTargets r = renderTarget t ++ joinTargets r :=
        (renderTarget_append t _).symm
      rw [joined_of_notMem hbroken, renderTarget_append, ← List.cons_append, ← List.cons_append,
        joinTargets_append (by simp [hbroken]) (by simp [ht.2]), hopen]

/-! ## Entries -/

theorem mapTargets_mapTargets (hg : ∀ t, IsTarget t → IsTarget (g t)) (page : Text) :
    mapTargets f (mapTargets g page) = mapTargets (f ∘ g) page := by
  have hpiece : Piece.render (fun t => renderTarget (f t)) ∘ Piece.relabel renderTarget g =
      Piece.render fun t => renderTarget ((f ∘ g) t) := by
    funext piece
    cases piece <;> rfl
  rw [mapTargets, replace, scan_mapTargets hg, List.flatMap_map]
  exact congrArg (List.flatMap · _) hpiece

/-- **Entries are items.** When the targets of a page are replaced, its entries are what becomes of
the targets of its items and leads to a page. -/
theorem entries_mapTargets (hg : ∀ t, IsTarget t → IsTarget (g t)) (page : Text) :
    entries (mapTargets g page) = ((sources page).map (joined ∘ g)).filter isLocalPage := by
  have hparen : ∀ t, IsTarget t → ')' ∉ (joined ∘ g) t :=
    fun t ht => notMem_joined_of_notMem (hg t ht).2
  have hlines : split '\n' (mapTargets (joined ∘ g) page) =
      (linkLines page).map (render (joined ∘ g)) := by
    refine split_flatMap_render fun t _ _ => ?_
    simp [renderTarget, notMem_joined]
  rw [entries, joinTargets_eq, mapTargets_mapTargets hg, filterMap_itemTarget?_ofText, hlines,
    List.filterMap_map, List.filter_filterMap, sources, List.map_filterMap, List.filter_filterMap]
  exact List.filterMap_congr fun line hline => filter_itemTarget?_render hparen hline

/-- The targets of the entries of a page, as they are written. -/
def written (page : Text) : List Text := (sources page).filter fun t => isLocalPage (joined t)

/-- The entries of a page are its items that lead to pages, joined where they are broken. -/
theorem entries_eq (page : Text) : entries page = (written page).map joined := by
  have hid : ∀ t, IsTarget t → IsTarget (id t) := fun _ ht => ht
  calc
    entries page = entries (mapTargets id page) :=
      congrArg entries (mapTargets_eq_self (fun _ => rfl) page).symm
    _ = ((sources page).map joined).filter isLocalPage := entries_mapTargets hid page
    _ = (written page).map joined := List.filter_map

/-- When as many items lead to pages as before, the entries are the old ones with new targets. -/
theorem entries_mapTargets_of_isLocalPage (hg : ∀ t, IsTarget t → IsTarget (g t))
    (hlocal : ∀ t ∈ sources page, isLocalPage (joined (g t)) = isLocalPage (joined t)) :
    entries (mapTargets g page) = (written page).map (joined ∘ g) := by
  rw [entries_mapTargets hg, List.filter_map]
  exact congrArg _ (List.filter_congr hlocal)

end Numbering

end WikiTidy
