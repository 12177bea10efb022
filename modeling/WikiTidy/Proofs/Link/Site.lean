import Mathlib.Data.Option.Basic
import WikiTidy.Link.Site
import WikiTidy.Proofs.Text.Marks
import WikiTidy.Proofs.Text.Split

/-!
# What making links absolute takes away

A path that is made absolute stands behind an opening parenthesis, a colon or a blank
(`isPathStart`), with the slash and the first letter of a name. With the origin in front of it the
slash stands behind the origin. So the number of slashes between such neighbours falls by one for
each link that is found (`count_absolute_le`).
-/

namespace WikiTidy.Link

open Text

variable {m : Mark} {s r path head : Text} {b : Bool} {n : Nat}

/-- What stands in front of the path of a link. -/
def isPathStart (c : Char) : Bool := c == '(' || c == ':' || isBlank c

/-- The text starts with a slash and a letter of a name. -/
def StartsPath (path : Text) : Prop := ∃ y rest, path = '/' :: y :: rest ∧ isNameChar y = true

/-! ## What a link looks like -/

theorem slashName?_eq_some {name : Text} (h : slashName? s = some (name, r)) :
    s = name ++ r ∧ StartsPath name := by
  simp only [slashName?, Option.bind_eq_bind, Option.bind_eq_some_iff] at h
  obtain ⟨s₁, hslash, ⟨name', s₂⟩, hrun, he⟩ := h
  obtain ⟨rfl, rfl⟩ : '/' :: name' = name ∧ s₂ = r := by simpa using he
  obtain ⟨rfl, hne, hall, -⟩ := run?_eq_some hrun
  obtain rfl := after?_eq_some_iff.1 hslash
  obtain ⟨y, rest, rfl⟩ := List.exists_cons_of_ne_nil hne
  exact ⟨rfl, y, rest, rfl, hall y List.mem_cons_self⟩

theorem repositoryPath?_eq_some (h : repositoryPath? s = some (path, r)) :
    s = path ++ r ∧ StartsPath path := by
  simp only [repositoryPath?, Option.bind_eq_bind, Option.bind_eq_some_iff] at h
  obtain ⟨⟨owner, s₁⟩, howner, ⟨repository, s₂⟩, hrepository, he⟩ := h
  obtain ⟨rfl, y, rest, rfl, hy⟩ := slashName?_eq_some howner
  obtain ⟨rfl, -⟩ := slashName?_eq_some hrepository
  dsimp only at he
  split at he
  · next more =>
    obtain ⟨rfl, rfl⟩ := Prod.mk.inj (Option.some.inj he)
    exact ⟨by simp, y, _, rfl, hy⟩
  · obtain ⟨rfl, rfl⟩ := Prod.mk.inj (Option.some.inj he)
    exact ⟨by simp, y, _, rfl, hy⟩

theorem isPathChar_of_isNameChar {c : Char} (h : isNameChar c = true) : isPathChar c = true := by
  simp only [isNameChar, Bool.and_eq_true] at h
  exact Bool.and_eq_true_iff.2 ⟨h.1.1, h.2⟩

theorem isPathChar_of_slashName? {name : Text} (h : slashName? s = some (name, r)) :
    ∀ c ∈ name, isPathChar c = true := by
  simp only [slashName?, Option.bind_eq_bind, Option.bind_eq_some_iff] at h
  obtain ⟨s₁, -, ⟨name', s₂⟩, hrun, he⟩ := h
  obtain ⟨rfl, rfl⟩ : '/' :: name' = name ∧ s₂ = r := by simpa using he
  obtain ⟨-, -, hall, -⟩ := run?_eq_some hrun
  rw [List.forall_mem_cons]
  exact ⟨by decide, fun c hc => isPathChar_of_isNameChar (hall c hc)⟩

/-- A path holds no blank and no closing parenthesis. -/
theorem isPathChar_of_repositoryPath? (h : repositoryPath? s = some (path, r)) :
    ∀ c ∈ path, isPathChar c = true := by
  simp only [repositoryPath?, Option.bind_eq_bind, Option.bind_eq_some_iff] at h
  obtain ⟨⟨owner, s₁⟩, howner, ⟨repository, s₂⟩, hrepository, he⟩ := h
  have hnames : ∀ c ∈ owner ++ repository, isPathChar c = true := by
    rw [List.forall_mem_append]
    exact ⟨isPathChar_of_slashName? howner, isPathChar_of_slashName? hrepository⟩
  dsimp only at he
  split at he
  · next more =>
    obtain ⟨rfl, -⟩ := Prod.mk.inj (Option.some.inj he)
    rw [List.forall_mem_append, List.forall_mem_cons]
    exact ⟨hnames, by decide, List.all_eq_true.1 List.all_takeWhile⟩
  · obtain ⟨rfl, -⟩ := Prod.mk.inj (Option.some.inj he)
    exact hnames

theorem inline_eq_some (h : inline b s = some (path, r)) :
    s = [']', '('] ++ path ++ [')'] ++ r ∧ StartsPath path ∧ ∀ c ∈ path, isPathChar c = true := by
  simp only [inline, Option.bind_eq_bind, Option.bind_eq_some_iff] at h
  obtain ⟨s₁, hopen, ⟨path', s₂⟩, hpath, s₃, hclose, he⟩ := h
  obtain ⟨rfl, rfl⟩ : path' = path ∧ s₃ = r := by simpa using he
  obtain rfl : s₂ = [')'] ++ s₃ := after?_eq_some_iff.1 hclose
  obtain ⟨rfl, hstart⟩ := repositoryPath?_eq_some hpath
  obtain rfl := after?_eq_some_iff.1 hopen
  exact ⟨by simp, hstart, isPathChar_of_repositoryPath? hpath⟩

/-- The head of a definition as it is written: a label in brackets and a colon, with blanks around
them. -/
def IsHead (head : Text) : Prop :=
  ∃ indent label blanks, head = indent ++ '[' :: (label ++ ']' :: ':' :: blanks) ∧
    (∀ c ∈ indent, isBlank c = true) ∧ (label ≠ [] ∧ ']' ∉ label) ∧ ∀ c ∈ blanks, isBlank c = true

/-- **A head is read with all the blanks that follow it.** -/
theorem definitionHead?_eq_some_iff :
    definitionHead? s = some (head, r) ↔
      IsHead head ∧ s = head ++ r ∧ ∀ c ∈ r.head?, isBlank c = false := by
  have hopen : isBlank '[' = false := by decide
  constructor
  · intro h
    simp only [definitionHead?, Option.bind_eq_bind, Option.bind_eq_some_iff] at h
    obtain ⟨s₁, hopen, ⟨label, s₂⟩, hlabel, s₃, hclose, he⟩ := h
    obtain rfl : s₂ = [']', ':'] ++ s₃ := after?_eq_some_iff.1 hclose
    obtain ⟨rfl, hne, hall, -⟩ := run?_eq_some hlabel
    obtain ⟨rfl, rfl⟩ := Prod.mk.inj (Option.some.inj he)
    have hopen' := after?_eq_some_iff.1 hopen
    refine ⟨⟨s.takeWhile isBlank, label, s₃.takeWhile isBlank, by simp,
      List.all_eq_true.1 List.all_takeWhile, ⟨hne, fun hmem => ?_⟩,
      List.all_eq_true.1 List.all_takeWhile⟩, ?_, fun c hc => ?_⟩
    · simpa using hall _ hmem
    · calc s = s.takeWhile isBlank ++ s.dropWhile isBlank := List.takeWhile_append_dropWhile.symm
        _ = _ := by simp [hopen']
    · have hnot := List.head?_dropWhile_not isBlank s₃
      rw [hc] at hnot
      simpa using hnot
  · rintro ⟨⟨indent, label, blanks, rfl, hindent, ⟨hne, hlabel⟩, hblanks⟩, rfl, hr⟩
    have hrest : ∀ c ∈ ('[' :: (label ++ ']' :: ':' :: (blanks ++ r))).head?, isBlank c = false := by
      simpa using hopen
    have hrun : run? (· != ']') (label ++ ']' :: ':' :: (blanks ++ r)) =
        some (label, ']' :: ':' :: (blanks ++ r)) :=
      run?_append hne (all_ne_of_notMem hlabel) (by simp)
    have hsource : indent ++ '[' :: (label ++ ']' :: ':' :: blanks) ++ r =
        indent ++ '[' :: (label ++ ']' :: ':' :: (blanks ++ r)) := by simp
    rw [hsource, definitionHead?, takeWhile_append_stop hindent hrest,
      dropWhile_append_stop hindent hrest]
    simp [after?, hrun, takeWhile_append_stop hblanks hr, dropWhile_append_stop hblanks hr]

theorem IsHead.exists_pathStart (h : IsHead head) :
    ∃ a x, head = a ++ [x] ∧ isPathStart x = true := by
  obtain ⟨indent, label, blanks, rfl, -, -, hblanks⟩ := h
  rcases List.eq_nil_or_concat' blanks with rfl | ⟨blanks, x, rfl⟩
  · exact ⟨indent ++ '[' :: (label ++ [']']), ':', by simp, by decide⟩
  · refine ⟨indent ++ '[' :: (label ++ ']' :: ':' :: blanks), x, by simp, ?_⟩
    have hblank : isBlank x = true := hblanks x (by simp)
    simp [isPathStart, hblank]

/-- The first closing bracket is the one behind the label. -/
theorem IsHead.exists_blanks {n rest : Text} (h : IsHead head) (hn : ']' ∉ n)
    (hs : n ++ ']' :: r = head ++ rest) :
    ∃ blanks, head = n ++ ']' :: ':' :: blanks ∧ r = ':' :: (blanks ++ rest) ∧
      ∀ c ∈ blanks, isBlank c = true := by
  obtain ⟨indent, label, blanks, rfl, hindent, hlabel, hblanks⟩ := h
  have hopen : ']' ∉ indent ++ '[' :: label := by
    intro hmem
    rcases List.mem_append.1 hmem with hmem | hmem
    · exact absurd (hindent _ hmem) (by decide)
    · simp [hlabel.2] at hmem
  have hcut : n ++ ']' :: r = (indent ++ '[' :: label) ++ ']' :: ':' :: (blanks ++ rest) := by
    simpa using hs
  obtain ⟨rfl, rfl⟩ := append_sep_inj hn hopen hcut
  exact ⟨blanks, by simp, rfl, hblanks⟩

/-- A definition is a head and a path at the start of a line. -/
theorem definition_eq_some_iff :
    definition true s = some ((head, path), r) ↔
      ∃ t, IsHead head ∧ s = head ++ t ∧ repositoryPath? t = some (path, r) := by
  simp only [definition, Option.bind_eq_bind, Option.bind_eq_some_iff]
  constructor
  · rintro ⟨-, -, ⟨head', t⟩, hhead, ⟨path', r'⟩, hpath, he⟩
    obtain ⟨⟨rfl, rfl⟩, rfl⟩ : (head' = head ∧ path' = path) ∧ r' = r := by simpa using he
    obtain ⟨hishead, hs, -⟩ := definitionHead?_eq_some_iff.1 hhead
    exact ⟨t, hishead, hs, hpath⟩
  · rintro ⟨t, hhead, hs, hpath⟩
    obtain ⟨rfl, y, rest, rfl, -⟩ := repositoryPath?_eq_some hpath
    have hslash : isBlank '/' = false := by decide
    have hread := definitionHead?_eq_some_iff.2 ⟨hhead, hs, by simpa using hslash⟩
    exact ⟨(), rfl, (head, _), hread, (_, r), hpath, rfl⟩

theorem definition_eq_some (h : definition b s = some ((head, path), r)) :
    s = head ++ path ++ r ∧ (∃ a x, head = a ++ [x] ∧ isPathStart x = true) ∧ StartsPath path ∧
      ∀ c ∈ path, isPathChar c = true := by
  cases b with
  | false => cases h
  | true =>
    obtain ⟨t, hhead, rfl, hpath⟩ := definition_eq_some_iff.1 h
    obtain ⟨rfl, hstart⟩ := repositoryPath?_eq_some hpath
    exact ⟨by simp, hhead.exists_pathStart, hstart, isPathChar_of_repositoryPath? hpath⟩

/-! ## Counting slashes in front of names -/

/-- The mark sees nothing in the origin, and falls by `n` when the origin is put in front of a
path. -/
structure SeesPaths (m : Mark) (n : Nat) : Prop where
  address : m.tally '\n' origin '/' = 0
  path : ∀ x y, isPathStart x = true → isNameChar y = true →
    (m.slash 'm' y).toNat + n ≤ (m.slash x y).toNat

theorem seesPaths_ofChars {cs : List Char} (h : (origin.all fun c => !cs.contains c) = true) :
    SeesPaths (Mark.ofChars cs) 0 where
  address := by
    have horigin : ∀ c ∈ origin, c ∉ cs := by simpa using h
    rw [Mark.tally_ofChars (horigin '/' (by decide +kernel)), List.countP_eq_zero]
    intro c hc
    simpa using horigin c hc
  path x y _ _ := Nat.le_refl _

theorem SeesPaths.falls (hm : SeesPaths m n) {x : Char} (hx : isPathStart x = true)
    (hpath : StartsPath path) : m.Falls n (x :: origin ++ path) (x :: path) := by
  obtain ⟨y, rest, rfl, hy⟩ := hpath
  have hx' : x ≠ '/' := by
    rintro rfl
    exact absurd hx (by decide)
  have hy' : y ≠ '/' := by
    rintro rfl
    exact absurd hy (by decide)
  have horigin : m.tally x origin '/' = 0 :=
    (Mark.tally_congr_left (by decide +kernel)).trans hm.address
  have hlast : origin.getLastD x = 'm' := by
    rw [show origin = "https://github.co".toList ++ ['m'] by decide +kernel, List.getLastD_concat]
  intro pre post
  have hnew : m.count (pre ++ (x :: origin ++ '/' :: y :: rest) ++ post) =
      m.tally '\n' pre x + ((m.char x).toNat +
        ((m.slash 'm' y).toNat + m.tally '/' (y :: rest ++ post) '\n')) := by
    have hsplit := m.tally_append_cons '\n' pre (origin ++ '/' :: (y :: rest ++ post)) '\n' hx'
    have horigin' := m.tally_append x origin ('/' :: (y :: rest ++ post)) '\n'
    rw [hlast] at horigin'
    rw [horigin'] at hsplit
    simpa [Mark.count, Mark.tally, Mark.holds, horigin] using hsplit
  have hold : m.count (pre ++ (x :: '/' :: y :: rest) ++ post) =
      m.tally '\n' pre x + ((m.char x).toNat +
        ((m.slash x y).toNat + m.tally '/' (y :: rest ++ post) '\n')) := by
    have hsplit := m.tally_append_cons '\n' pre ('/' :: (y :: rest ++ post)) '\n' hx'
    simpa [Mark.count, Mark.tally, Mark.holds] using hsplit
  have hslash := hm.path x y hx hy
  omega

/-- The page with its inline links made absolute. -/
def inlined (page : Text) : Text :=
  replace inline (fun path => [']', '('] ++ origin ++ path ++ [')']) page

/-- **Every path that is made absolute takes a slash away.** -/
theorem count_absolute_le (hm : SeesPaths m n) (page : Text) :
    m.count (absolute page) + n * (hits inline page + hits definition (inlined page)) ≤
      m.count page := by
  have hinline : m.Falls (n * hits inline page) (inlined page) page := by
    refine Mark.falls_replace ?_ page
    intro b s path r h
    obtain ⟨rfl, hpath, -⟩ := inline_eq_some h
    refine ⟨_, by simp, rfl, ?_⟩
    have hfalls := (hm.falls (by decide : isPathStart '(' = true) hpath).within [']'] [')']
    simpa using hfalls
  have hdefinition : m.Falls (n * hits definition (inlined page)) (absolute page) (inlined page) := by
    refine Mark.falls_replace ?_ (inlined page)
    rintro b s ⟨head, path⟩ r h
    obtain ⟨rfl, ⟨a, x, rfl, hx⟩, hpath, -⟩ := definition_eq_some h
    refine ⟨_, by simp, rfl, ?_⟩
    have hfalls := (hm.falls hx hpath).within a []
    simpa using hfalls
  have hall := (hinline.trans hdefinition).count_le
  rw [Nat.mul_add]
  omega

/-- A page without links to make absolute is left alone. -/
theorem absolute_of_hits_eq_zero {page : Text} (hinline : hits inline page = 0)
    (hdefinition : hits definition page = 0) : absolute page = page := by
  rw [absolute, replace_of_hits_eq_zero _ hinline, replace_of_hits_eq_zero _ hdefinition]

end WikiTidy.Link
