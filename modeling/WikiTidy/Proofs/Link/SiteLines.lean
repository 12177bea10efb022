import WikiTidy.Proofs.Link.Site
import WikiTidy.Proofs.Text.Replacing

/-!
# Links within the site, line by line

**Theorem (`absolute_append`).** Whole lines become absolute by themselves, and so does what follows
them, if it opens a line of its own (`OpensLine`).

An inline link goes over no blank (`inline_stopsAt`), so it does not leave its line. A definition may
do so: the blanks around its head go on into the next line, and so does a label that is not closed.
The proof follows the lines. Once a label is closed in them, the definition is read in them or not at
all (`definition_stop`), and as long as none is closed they stay as they are
(`render_scanFrom_of_notMem`).
-/

namespace WikiTidy.Link

open Text

variable {s t x z r head label path : Text} {c d : Char}

/-! ## Paths stop at blanks -/

theorem isLineEnd_of_isPathChar (h : isPathChar c = true) : isLineEnd c = false := by
  rw [Bool.eq_false_iff]
  intro hend
  simp [isPathChar, isBlank_of_isLineEnd hend] at h

theorem ne_of_isBlank (hc : isBlank c = true) (hd : isBlank d = false) : c ≠ d := by
  rintro rfl
  rw [hc] at hd
  cases hd

theorem slashName?_stopsAt (hc : isBlank c = true) : StopsAt c slashName? := by
  intro x
  have hslash : c ∉ ['/'] := by simpa using ne_of_isBlank hc (by decide)
  have hname : isNameChar c = false := by simp [isNameChar, hc]
  rcases after?_stop hslash x with hnone | ⟨y, hy⟩
  · exact Or.inl fun t => by simp [slashName?, hnone]
  · rcases run?_stopsAt hname y with hnone | ⟨name, r, hr⟩
    · exact Or.inl fun t => by simp [slashName?, hy, hnone]
    · exact Or.inr ⟨'/' :: name, r, fun t => by simp [slashName?, hy, hr]⟩

theorem repositoryPath?_stopsAt (hc : isBlank c = true) : StopsAt c repositoryPath? := by
  intro x
  have hslash : c ≠ '/' := ne_of_isBlank hc (by decide)
  have hpath : isPathChar c = false := by simp [isPathChar, hc]
  rcases slashName?_stopsAt hc x with hnone | ⟨owner, y, hy⟩
  · exact Or.inl fun t => by simp [repositoryPath?, hnone]
  · rcases slashName?_stopsAt hc y with hnone | ⟨repository, z, hz⟩
    · exact Or.inl fun t => by simp [repositoryPath?, hy, hnone]
    · right
      rcases z with _ | ⟨d, z⟩
      · refine ⟨owner ++ repository, [], fun t => ?_⟩
        simp [repositoryPath?, hy, hz, hslash]
      · by_cases hd : d = '/'
        · subst hd
          refine ⟨owner ++ repository ++ '/' :: z.takeWhile isPathChar, z.dropWhile isPathChar,
            fun t => ?_⟩
          simp [repositoryPath?, hy, hz, takeWhile_append_cons hpath, dropWhile_append_cons hpath]
        · refine ⟨owner ++ repository, d :: z, fun t => ?_⟩
          simp [repositoryPath?, hy, hz, hd]

theorem inline_stopsAt (hc : isBlank c = true) : StopsAt c (inline true) := by
  intro x
  have hopen : c ∉ [']', '('] := by
    simpa using ⟨ne_of_isBlank hc (by decide), ne_of_isBlank hc (by decide)⟩
  have hclose : c ∉ [')'] := by simpa using ne_of_isBlank hc (by decide)
  rcases after?_stop hopen x with hnone | ⟨y, hy⟩
  · exact Or.inl fun t => by simp [inline, hnone]
  · rcases repositoryPath?_stopsAt hc y with hnone | ⟨path, z, hz⟩
    · exact Or.inl fun t => by simp [inline, hy, hnone]
    · rcases after?_stop hclose z with hnone | ⟨w, hw⟩
      · exact Or.inl fun t => by simp [inline, hy, hz, hnone]
      · exact Or.inr ⟨path, w, fun t => by simp [inline, hy, hz, hw]⟩

theorem inline_isLocal : inline.IsLocal where
  anywhere _ _ := rfl
  takes s path r h := by
    obtain ⟨rfl, -⟩ := inline_eq_some h
    exact ⟨[']', '('] ++ path ++ [')'], by simp, rfl⟩

theorem inline_startsWith : inline.StartsWith ']' := by
  intro s path r h
  obtain ⟨rfl, -⟩ := inline_eq_some h
  rfl

theorem hits_inline_of_notMem (h : ']' ∉ s) : hits inline s = 0 := by
  have hnil := inline_isLocal.hits_append_of_notMem inline_startsWith h []
  rw [List.append_nil] at hnil
  exact hnil

/-! ## Definitions and lines -/

theorem definition_isOfLines : definition.IsOfLines := fun _ => rfl

/-- What can follow the lines in front of it without getting into one of their links: it does not go
on with a path, and a label that is open where it starts either leads to nothing or is the beginning
of a definition that stands here anyway. -/
structure OpensLine (t : Text) : Prop where
  head : (t.dropWhile isBlank).head? ≠ some '/'
  label : ∀ z c, isBlank c = true → ']' ∉ z →
    definition true (z ++ c :: t) = none ∨
      ∃ head path r, definition true t = some ((head, path), r) ∧
        definition true (z ++ c :: t) = some ((z ++ c :: head, path), r)

/-- **A definition whose label ends in the lines** is read in them, or not at all. -/
theorem definition_stop (hc : isBlank c = true) (hz : ']' ∈ z) :
    (∀ t, OpensLine t → definition true (z ++ c :: t) = none) ∨
      ∃ a y, ∀ t, definition true (z ++ c :: t) = some (a, y ++ c :: t) := by
  by_cases hall : ∀ t, OpensLine t → definition true (z ++ c :: t) = none
  · exact Or.inl hall
  right
  push Not at hall
  obtain ⟨t, ht, hsome⟩ := hall
  obtain ⟨⟨⟨head, path⟩, r⟩, hread⟩ := Option.ne_none_iff_exists'.1 hsome
  obtain ⟨rest, hhead, hsource, hpath⟩ := definition_eq_some_iff.1 hread
  obtain ⟨n, m, rfl, hn⟩ := List.eq_append_cons_of_mem hz
  have hbracket : n ++ ']' :: (m ++ c :: t) = head ++ rest := by simpa using hsource
  obtain ⟨blanks, rfl, hbehind, hblanks⟩ := hhead.exists_blanks hn hbracket
  obtain ⟨m, rfl⟩ : ∃ m', m = ':' :: m' := by
    cases m with
    | nil => exact absurd (List.cons.inj hbehind).1 (ne_of_isBlank hc (by decide))
    | cons d m => exact ⟨m, by rw [(List.cons.inj hbehind).1]⟩
  rcases List.append_eq_append_iff.1 (List.cons.inj hbehind).2 with ⟨e, rfl, he⟩ | ⟨e, rfl, he⟩
  · -- The blanks go on into what follows, so the path would have to start there.
    exfalso
    obtain ⟨rfl, y, more, rfl, -⟩ := repositoryPath?_eq_some hpath
    have hslash : isBlank '/' = false := by decide
    cases e with
    | nil => exact ne_of_isBlank hc hslash (List.cons.inj he).1
    | cons d e =>
      have he' : ∀ d ∈ e, isBlank d = true := fun d hd => hblanks d (by simp [hd])
      refine ht.head ?_
      rw [(List.cons.inj he).2]
      have hdrop : (e ++ '/' :: y :: (more ++ r)).dropWhile isBlank = '/' :: y :: (more ++ r) :=
        dropWhile_append_stop he' (by simpa using hslash)
      simpa using congrArg List.head? hdrop
  · rcases repositoryPath?_stopsAt hc e with hnone | ⟨path', y', hy'⟩
    · rw [he, hnone] at hpath
      cases hpath
    · refine ⟨(n ++ ']' :: ':' :: blanks, path'), y', fun t => ?_⟩
      exact definition_eq_some_iff.2 ⟨e ++ c :: t, hhead, by simp, hy' t⟩

/-- What becomes of a definition. -/
def withOrigin (found : Text × Text) : Text := found.1 ++ origin ++ found.2

theorem absolute_eq (page : Text) : absolute page = replace definition withOrigin (inlined page) := rfl

/-- Behind a definition no line starts. -/
theorem replace_of_definition (h : definition true s = some ((head, path), r)) :
    replace definition withOrigin s = head ++ origin ++ path ++
      (scanFrom definition false 0 r).flatMap (Piece.render withOrigin) := by
  obtain ⟨rfl, -, ⟨y, more, hpath, -⟩, hchars⟩ := definition_eq_some h
  obtain ⟨v, e, rfl⟩ := (List.eq_nil_or_concat' path).resolve_left (by simp [hpath])
  have he : isLineEnd e = false := isLineEnd_of_isPathChar (hchars e (by simp))
  have hsource : head ++ (v ++ [e]) ++ r = (head ++ v) ++ e :: r := by simp
  rw [hsource] at h ⊢
  rw [replace, scan, render_scanFrom_append_cons h, he]
  rfl

/-- In front of what follows, lines without a closing bracket stay. -/
theorem render_scanFrom_of_notMem (hc : isLineEnd c = true) (hz : ']' ∉ z) (ht : OpensLine t)
    (b : Bool) :
    (scanFrom definition b 0 (z ++ c :: t)).flatMap (Piece.render withOrigin) =
      z ++ c :: replace definition withOrigin t := by
  -- A definition that starts in the lines is one that follows them, with a longer head.
  have hstart : ∀ z b, ']' ∉ z → definition b (z ++ c :: t) ≠ none →
      (scanFrom definition b 0 (z ++ c :: t)).flatMap (Piece.render withOrigin) =
        z ++ c :: replace definition withOrigin t := by
    intro z b hz hsome
    cases b with
    | false => exact absurd rfl hsome
    | true =>
      rcases ht.label z c (isBlank_of_isLineEnd hc) hz with hnone | ⟨head, path, r, hread, hwhole⟩
      · exact absurd hnone hsome
      · refine (replace_of_definition hwhole).trans ?_
        rw [replace_of_definition hread]
        simp
  induction z generalizing b with
  | nil =>
    by_cases hread : definition b (c :: t) = none
    · rw [List.nil_append, render_scanFrom_cons hread, hc]
      rfl
    · exact hstart [] b hz hread
  | cons d z ih =>
    by_cases hread : definition b (d :: (z ++ c :: t)) = none
    · rw [List.cons_append, render_scanFrom_cons hread, ih (List.not_mem_of_not_mem_cons hz)]
      rfl
    · exact hstart (d :: z) b hz hread

/-- **What lines become does not depend on what follows them.** -/
theorem exists_render_scanFrom (hc : isLineEnd c = true) (z : Text) (b : Bool) :
    ∃ s, ∀ t, OpensLine t →
      (scanFrom definition b 0 (z ++ c :: t)).flatMap (Piece.render withOrigin) =
        s ++ c :: replace definition withOrigin t := by
  induction hn : z.length using Nat.strongRecOn generalizing z b with
  | ind n ih =>
    by_cases hz : ']' ∉ z
    · exact ⟨z, fun t ht => render_scanFrom_of_notMem hc hz ht b⟩
    rw [not_not] at hz
    obtain ⟨d, z, rfl⟩ := List.exists_cons_of_ne_nil (List.ne_nil_of_mem hz)
    have hplain : (∀ t, OpensLine t → definition b (d :: (z ++ c :: t)) = none) →
        ∃ s, ∀ t, OpensLine t →
        (scanFrom definition b 0 (d :: z ++ c :: t)).flatMap (Piece.render withOrigin) =
          s ++ c :: replace definition withOrigin t := by
      intro hnone
      obtain ⟨s, hs⟩ := ih z.length (by simp [← hn]) z (isLineEnd d) rfl
      refine ⟨d :: s, fun t ht => ?_⟩
      rw [List.cons_append, render_scanFrom_cons (hnone t ht), hs t ht]
      rfl
    cases b with
    | false => exact hplain fun t _ => rfl
    | true =>
      rcases definition_stop (isBlank_of_isLineEnd hc) hz with hnone | ⟨⟨head, path⟩, y, hread⟩
      · exact hplain hnone
      · obtain ⟨hsource, -, ⟨e, more, hpath, -⟩, -⟩ := definition_eq_some (hread [])
        have hcut : d :: z = head ++ path ++ y := by
          rw [← List.append_assoc] at hsource
          exact List.append_cancel_right hsource
        have hlength : y.length < n := by
          rw [← hn, hcut, hpath]
          simp only [List.length_append, List.length_cons]
          omega
        obtain ⟨s, hs⟩ := ih y.length hlength y false rfl
        refine ⟨head ++ origin ++ path ++ s, fun t ht => ?_⟩
        have hwhole := replace_of_definition (hread t)
        rw [hs t ht] at hwhole
        rw [List.append_assoc]
        exact hwhole

/-- Whole lines, or nothing at all. -/
def IsLines (lines : Text) : Prop := lines = [] ∨ ∃ z c, lines = z ++ [c] ∧ isLineEnd c = true

theorem definition_eq_none_of_notMem (h : ']' ∉ s) : definition true s = none := by
  rw [Option.eq_none_iff_forall_ne_some]
  rintro ⟨⟨head, path⟩, r⟩ hread
  obtain ⟨rest, ⟨indent, label, blanks, rfl, -⟩, rfl, -⟩ := definition_eq_some_iff.1 hread
  simp at h

theorem notMem_append_cons (hc : isBlank c = true) (hz : ']' ∉ z) (ht : ']' ∉ t) :
    ']' ∉ z ++ c :: t := by
  rw [List.mem_append, List.mem_cons, not_or, not_or]
  exact ⟨hz, (ne_of_isBlank hc (by decide)).symm, ht⟩

theorem opensLine_of_notMem (hhead : (t.dropWhile isBlank).head? ≠ some '/') (ht : ']' ∉ t) :
    OpensLine t where
  head := hhead
  label _ _ hc hz := Or.inl (definition_eq_none_of_notMem (notMem_append_cons hc hz ht))

theorem opensLine_nil : OpensLine [] := opensLine_of_notMem (by simp) (by simp)

/-- **Lines become absolute by themselves**, and so does what follows them. -/
theorem absolute_append {lines : Text} (hlines : IsLines lines) (ht : OpensLine t)
    (hinline : hits inline t = 0) : absolute (lines ++ t) = absolute lines ++ absolute t := by
  rcases hlines with rfl | ⟨z, c, rfl, hc⟩
  · rfl
  obtain ⟨y, hy⟩ : ∃ y, ∀ t, inlined (z ++ c :: t) = y ++ c :: inlined t :=
    inline_isLocal.exists_replace_append_cons (inline_stopsAt (isBlank_of_isLineEnd hc)) z
  obtain ⟨s, hs⟩ := exists_render_scanFrom hc y true
  have hcut : ∀ t, OpensLine t → hits inline t = 0 → absolute (z ++ c :: t) = s ++ c :: absolute t := by
    intro t ht hinline
    have hkept : inlined t = t := replace_of_hits_eq_zero _ hinline
    rw [absolute_eq, absolute_eq, hy, hkept]
    exact hs t ht
  have hnil : absolute [] = [] := rfl
  rw [List.append_assoc, List.singleton_append, hcut t ht hinline, hcut [] opensLine_nil rfl, hnil,
    List.append_assoc]
  rfl

/-! ## Links as they are written -/

/-- The end of an inline link that leads to an address. -/
def linkTo (address : Text) : Text := [']', '('] ++ (address ++ [')'])

/-- The head of a definition. -/
def heading (label : Text) : Text := '[' :: label ++ [']', ':', ' ']

theorem isBlank_of_mem_singleton : ∀ c ∈ [' '], isBlank c = true :=
  List.all_eq_true.1 (by decide)

theorem heading_isHead (hlabel : label ≠ [] ∧ ']' ∉ label) : IsHead (heading label) :=
  ⟨[], label, [' '], by simp [heading], by simp, hlabel, isBlank_of_mem_singleton⟩

/-- A closing bracket that a parenthesis follows ends no label. -/
theorem definition_eq_none_of_link (hx : ']' ∉ x) (address : Text) :
    definition true (x ++ linkTo address) = none := by
  rw [Option.eq_none_iff_forall_ne_some]
  rintro ⟨⟨head, path⟩, r⟩ hread
  obtain ⟨rest, hhead, hsource, -⟩ := definition_eq_some_iff.1 hread
  obtain ⟨blanks, -, hcolon, -⟩ := hhead.exists_blanks hx hsource
  exact absurd (List.cons.inj hcolon).1 (by decide)

theorem opensLine_link (hhead : (x.dropWhile isBlank).head? ≠ some '/') (hx : ']' ∉ x)
    (address : Text) : OpensLine (x ++ linkTo address) where
  head := by
    have hclose : isBlank ']' = false := by decide
    have hdrop := dropWhile_append_cons hclose x ('(' :: (address ++ [')']))
    show ((x ++ ']' :: '(' :: (address ++ [')'])).dropWhile isBlank).head? ≠ _
    rw [hdrop]
    cases hrest : x.dropWhile isBlank with
    | nil => simp
    | cons d rest => simpa [hrest] using hhead
  label z c hc hz := by
    have hopen : ']' ∉ z ++ c :: x := notMem_append_cons hc hz hx
    simpa using Or.inl (definition_eq_none_of_link hopen address)

theorem opensLine_heading (hlabel : label ≠ [] ∧ ']' ∉ label) (hs : ∀ c ∈ s.head?, isBlank c = false) :
    OpensLine (heading label ++ s) where
  head := by
    have hopen : isBlank '[' = false := by decide
    simp [heading, hopen]
  label z c hc hz := by
    rw [or_iff_not_imp_left]
    intro hsome
    obtain ⟨⟨⟨head, path⟩, r⟩, hread⟩ := Option.ne_none_iff_exists'.1 hsome
    obtain ⟨rest, hhead, hsource, hpath⟩ := definition_eq_some_iff.1 hread
    have hopen : ']' ∉ z ++ c :: '[' :: label :=
      notMem_append_cons hc hz (by simp [hlabel.2])
    have hbracket : (z ++ c :: '[' :: label) ++ ']' :: ':' :: ' ' :: s = head ++ rest := by
      rw [← hsource]
      simp [heading]
    obtain ⟨blanks, rfl, hbehind, hblanks⟩ := hhead.exists_blanks hopen hbracket
    -- Both sides of the blanks start with something else, so they are the same.
    have hcut : [' '] ++ s = blanks ++ rest := (List.cons.inj hbehind).2
    have hrest : ∀ c ∈ rest.head?, isBlank c = false := by
      obtain ⟨rfl, y, more, rfl, -⟩ := repositoryPath?_eq_some hpath
      have hslash : isBlank '/' = false := by decide
      simpa using hslash
    obtain rfl : s = rest := by
      rw [← dropWhile_append_stop isBlank_of_mem_singleton hs, hcut,
        dropWhile_append_stop hblanks hrest]
    obtain rfl : [' '] = blanks := List.append_cancel_right hcut
    have hdefinition : definition true (heading label ++ s) = some ((heading label, path), r) :=
      definition_eq_some_iff.2 ⟨s, heading_isHead hlabel, rfl, hpath⟩
    exact ⟨heading label, path, r, hdefinition, by simpa [heading] using hread⟩

end WikiTidy.Link
