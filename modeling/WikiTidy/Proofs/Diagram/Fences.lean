import WikiTidy.Proofs.Diagram.Counts

/-!
# Fences and the lines between them

**Theorem (`repairDiagrams_bodies`).** Repairing the diagrams of a page changes nothing but their
bodies. The page that comes out has as many lines; a line that is a fence or stands outside all
diagrams is the same at the same place; each body is the repaired body, of the same length; and
reading the new page finds the same fences at the same places.

Where diagrams open and close is told by one bit that goes over the lines (`isOpenAfter`), so that
`Encloses` names the two ends of a body by their places.

**Why the fences stay.** A repaired line is a fence exactly if it was one (`map_isFence_repair`):
cleaning the text of a node changes nothing before its bracket, and the line of an edge starts with
a blank or with the name of a node. So one relation between the lines and the repaired lines,
`Alike`, follows the bit through both.

**Why the bodies are repaired one by one.** When no diagram is open, a scan goes on as if it had just
started (`Block.scan_append`).
-/

namespace WikiTidy.Diagram

open Text

variable {lines out front body ls : List Text} {line opening closing : Text} {e : Edge}
  {es : List Edge} {n o c i : Nat} {b : Bool}

/-! ## Diagrams by their places -/

/-- A diagram is open behind the lines, if one was open before them or not. -/
def isOpenAfter (isOpen : Bool) (lines : List Text) : Bool :=
  lines.foldl (fun isOpen line => if isOpen then !isFence line else opensDiagram line) isOpen

@[simp] theorem isOpenAfter_nil (b : Bool) : isOpenAfter b [] = b := rfl

@[simp] theorem isOpenAfter_cons (b : Bool) (line : Text) (lines : List Text) :
    isOpenAfter b (line :: lines) =
      isOpenAfter (if b then !isFence line else opensDiagram line) lines := rfl

/-- A diagram is open where line `i` starts. -/
def isOpenAt (lines : List Text) (i : Nat) : Bool := isOpenAfter false (lines.take i)

/-- Line `o` opens a diagram, and its body ends before line `c`: the next fence, or the end of the
page. -/
structure Encloses (lines : List Text) (o c : Nat) : Prop where
  outside : isOpenAt lines o = false
  opens : ∃ line, lines[o]? = some line ∧ opensDiagram line = true
  lt : o < c
  le : c ≤ lines.length
  inside : ∀ i, o < i → i < c → ∀ line, lines[i]? = some line → isFence line = false
  closes : ∀ line, lines[c]? = some line → isFence line = true

/-- Line `i` stands in the body of a diagram. -/
def InBody (lines : List Text) (i : Nat) : Prop := ∃ o c, Encloses lines o c ∧ o < i ∧ i < c

/-- The lines between the lines `o` and `c`. -/
def between (lines : List Text) (o c : Nat) : List Text := (lines.take c).drop (o + 1)

/-! ## Fences among repaired lines -/

theorem isFence_cleanLine (s : Text) : isFence (cleanLine s) = isFence s :=
  startsWith_cleanLine (by decide) s

namespace Edge

/-- The line of an edge starts with a blank or with the name of a node. -/
theorem isFence_of_spells (he : e.WellFormed) (h : e.Spells line) : isFence line = false := by
  obtain ⟨w₁, w₂, w₃, w₄, -, -, -, -, -, rfl⟩ := h
  rw [← Bool.not_eq_true, isFence, startsWith_iff]
  rintro ⟨tail, htail⟩
  have hhead : '`' ∈ (e.indent ++ e.source).head? := by
    have hne : e.indent ++ e.source ≠ [] := by simp [he.source.1]
    rw [← List.head?_append_of_ne_nil _ hne, List.append_assoc, ← htail]
    rfl
  rcases List.mem_append.1 (List.mem_of_mem_head? hhead) with h | h
  · exact he.indent.notMem (by decide) h
  · exact he.source.notMem (by decide) h

end Edge

theorem Rewrites.map_isFence (h : Rewrites n lines es out) :
    out.map isFence = lines.map isFence := by
  induction h with
  | nil => rfl
  | edge hparse _ he' _ ih =>
    obtain ⟨-, he, hspells⟩ := Edge.parse_eq_some_iff.1 hparse
    rw [List.map_cons, List.map_cons, ih, Edge.isFence_of_spells he hspells,
      Edge.isFence_of_spells he' (Edge.spells_render _)]
  | keep _ _ ih => rw [List.map_cons, List.map_cons, ih]

/-- **Repairing the lines of a diagram makes no fence and takes none away.** -/
theorem map_isFence_repair (lines : List Text) :
    (repair lines).map isFence = lines.map isFence := by
  have hclean : (cleanTexts lines).map isFence = lines.map isFence := by
    rw [cleanTexts, List.map_map]
    exact List.map_congr_left fun line _ => isFence_cleanLine line
  simp only [repair]
  split
  · rw [(rewrites_relocateLabels _).map_isFence, hclean]
  · exact hclean

theorem isFence_repair (h : ∀ line ∈ lines, isFence line = false) :
    ∀ line ∈ repair lines, isFence line = false := by
  have hall : ∀ answer ∈ (repair lines).map isFence, answer = false := by
    rw [map_isFence_repair, List.forall_mem_map]
    exact h
  exact fun line hline => hall _ (List.mem_map_of_mem hline)

/-! ## The bit through both pages -/

/-- The lines are alike for a reader of fences who starts inside a diagram or not: outside diagrams
the same, inside both no fence, and the fence that ends a diagram the same. -/
inductive Alike : Bool → List Text → List Text → Prop
  | nil (b : Bool) : Alike b [] []
  | outside {line : Text} {lines out : List Text} :
      Alike (opensDiagram line) lines out → Alike false (line :: lines) (line :: out)
  | closing {line : Text} {lines out : List Text} :
      isFence line = true → Alike false lines out → Alike true (line :: lines) (line :: out)
  | inside {line line' : Text} {lines out : List Text} :
      isFence line = false → isFence line' = false → Alike true lines out →
      Alike true (line :: lines) (line' :: out)

namespace Alike

/-- The bit is the same at every line. -/
theorem isOpenAfter_take (h : Alike b lines out) (i : Nat) :
    isOpenAfter b (out.take i) = isOpenAfter b (lines.take i) := by
  induction h generalizing i with
  | nil => rfl
  | outside _ ih =>
    cases i with
    | zero => rfl
    | succ i => exact ih i
  | closing hfence _ ih =>
    cases i with
    | zero => rfl
    | succ i => simpa [hfence] using ih i
  | inside hline hline' _ ih =>
    cases i with
    | zero => rfl
    | succ i => simpa [hline, hline'] using ih i

/-- Fences and lines outside diagrams are the same. -/
theorem getElem?_eq (h : Alike b lines out) (hline : lines[i]? = some line)
    (hkept : isOpenAfter b (lines.take i) = false ∨ isFence line = true) :
    out[i]? = some line := by
  induction h generalizing i with
  | nil => simp at hline
  | outside _ ih =>
    cases i with
    | zero => exact hline
    | succ i => exact ih hline hkept
  | closing hfence _ ih =>
    cases i with
    | zero => exact hline
    | succ i => exact ih hline (by simpa [hfence] using hkept)
  | inside hinside _ _ ih =>
    cases i with
    | zero =>
      obtain rfl := Option.some.inj hline
      simp [hinside] at hkept
    | succ i => exact ih hline (by simpa [hinside] using hkept)

theorem map_isFence (h : Alike b lines out) : out.map isFence = lines.map isFence := by
  induction h with
  | nil => rfl
  | outside _ ih => rw [List.map_cons, List.map_cons, ih]
  | closing _ _ ih => rw [List.map_cons, List.map_cons, ih]
  | inside hline hline' _ ih => rw [List.map_cons, List.map_cons, ih, hline, hline']

theorem symm (h : Alike b lines out) : Alike b out lines := by
  induction h with
  | nil b => exact .nil b
  | outside _ ih => exact .outside ih
  | closing hfence _ ih => exact .closing hfence ih
  | inside hline hline' _ ih => exact .inside hline' hline ih

theorem append_body {body' : List Text} (hlength : body'.length = body.length)
    (hbody : ∀ line ∈ body, isFence line = false) (hbody' : ∀ line ∈ body', isFence line = false)
    (h : Alike true lines out) : Alike true (body ++ lines) (body' ++ out) := by
  induction body generalizing body' with
  | nil =>
    obtain rfl := List.eq_nil_of_length_eq_zero hlength
    exact h
  | cons line body ih =>
    obtain ⟨line', body', rfl⟩ := List.exists_cons_of_length_eq_add_one hlength
    rw [List.forall_mem_cons] at hbody hbody'
    exact .inside hbody.1 hbody'.1 (ih (Nat.succ.inj hlength) hbody.2 hbody'.2)

end Alike

/-! ## Lines block by block -/

theorem isOpenAfter_append (b : Bool) (front ls : List Text) :
    isOpenAfter b (front ++ ls) = isOpenAfter (isOpenAfter b front) ls := List.foldl_append

/-- Without fences a diagram stays open. -/
theorem isOpenAfter_body (h : ∀ line ∈ body, isFence line = false) :
    isOpenAfter true body = true := by
  induction body with
  | nil => rfl
  | cons line body ih =>
    rw [List.forall_mem_cons] at h
    rw [isOpenAfter_cons, if_pos rfl, h.1]
    exact ih h.2

namespace Block

/-- Behind a closed diagram a scan starts anew. -/
theorem scan_append (state : Option (Text × List Text))
    (h : isOpenAfter state.isSome front = false) (ls : List Text) :
    scan state (front ++ ls) = scan state front ++ scan none ls := by
  induction front generalizing state with
  | nil =>
    cases state with
    | none => rfl
    | some _ => cases h
  | cons line front ih =>
    cases state with
    | none =>
      by_cases hopen : opensDiagram line = true
      · simpa [scan, hopen] using ih (some (line, [])) (by simpa [hopen] using h)
      · simpa [scan, hopen] using ih none (by simpa [hopen] using h)
    | some s =>
      by_cases hfence : isFence line = true
      · simpa [scan, hfence] using ih none (by simpa [hfence] using h)
      · simpa [scan, hfence] using ih (some (s.1, line :: s.2)) (by simpa [hfence] using h)

theorem scan_body (h : ∀ line ∈ body, isFence line = false) (opening : Text)
    (taken ls : List Text) :
    scan (some (opening, taken)) (body ++ ls) = scan (some (opening, body.reverse ++ taken)) ls := by
  induction body generalizing taken with
  | nil => rfl
  | cons line body ih =>
    rw [List.forall_mem_cons] at h
    rw [List.cons_append, scan, if_neg (by simp [h.1]), ih h.2]
    simp

/-- The induction that follows the blocks of lines. -/
@[elab_as_elim]
theorem induct {motive : List Text → Prop} (nil : motive [])
    (line : ∀ line ls, opensDiagram line = false → motive ls → motive (line :: ls))
    (unclosed : ∀ opening body, opensDiagram opening = true →
      (∀ line ∈ body, isFence line = false) → motive (opening :: body))
    (closed : ∀ opening body closing ls, opensDiagram opening = true →
      (∀ line ∈ body, isFence line = false) → isFence closing = true → motive ls →
      motive (opening :: (body ++ closing :: ls)))
    (lines : List Text) : motive lines := by
  -- A diagram takes many lines at once, so the induction is on their number.
  induction hn : lines.length using Nat.strongRecOn generalizing lines with
  | ind n ih =>
    cases lines with
    | nil => exact nil
    | cons l ls =>
      by_cases hopen : opensDiagram l = true
      · have hbody : ∀ line ∈ ls.takeWhile (! isFence ·), isFence line = false := by
          intro line hline
          simpa using List.all_eq_true.1 List.all_takeWhile line hline
        have hls := List.takeWhile_append_dropWhile (p := (! isFence ·)) (l := ls)
        cases htail : ls.dropWhile (! isFence ·) with
        | nil =>
          rw [htail, List.append_nil] at hls
          rw [← hls]
          exact unclosed l _ hopen hbody
        | cons closing rest =>
          have hclosing : isFence closing = true := by
            have hhead := List.head?_dropWhile_not (! isFence ·) ls
            rw [htail] at hhead
            simpa using hhead
          rw [← hls, htail]
          refine closed l _ closing rest hopen hbody hclosing (ih rest.length ?_ rest rfl)
          have hlength := congrArg List.length hls
          rw [htail, List.length_append, List.length_cons] at hlength
          rw [← hn, List.length_cons]
          omega
      · rw [Bool.not_eq_true] at hopen
        refine line l ls hopen (ih ls.length ?_ ls rfl)
        rw [← hn]
        exact Nat.lt_succ_self _

end Block

theorem repairLines_append (h : isOpenAfter false front = false) (ls : List Text) :
    repairLines (front ++ ls) = repairLines front ++ repairLines ls := by
  have hscan := Block.scan_append none h ls
  rw [repairLines, Block.ofLines, hscan, List.flatMap_append]
  rfl

theorem repairLines_cons (h : opensDiagram line = false) (ls : List Text) :
    repairLines (line :: ls) = line :: repairLines ls := by
  simp [repairLines, Block.ofLines, Block.scan, h, Block.mapBody, Block.lines]

theorem repairLines_unclosed (hopen : opensDiagram opening = true)
    (hbody : ∀ line ∈ body, isFence line = false) :
    repairLines (opening :: body) = opening :: repair body := by
  have hscan := Block.scan_body hbody opening [] []
  rw [List.append_nil] at hscan
  simp [repairLines, Block.ofLines, Block.scan, hopen, hscan, Block.mapBody, Block.lines]

theorem repairLines_closed (hopen : opensDiagram opening = true)
    (hbody : ∀ line ∈ body, isFence line = false) (hclosing : isFence closing = true)
    (ls : List Text) :
    repairLines (opening :: (body ++ closing :: ls)) =
      opening :: (repair body ++ closing :: repairLines ls) := by
  simp [repairLines, Block.ofLines, Block.scan, hopen, Block.scan_body hbody, hclosing,
    Block.mapBody, Block.lines]

theorem alike_repairLines (lines : List Text) : Alike false lines (repairLines lines) := by
  induction lines using Block.induct with
  | nil => exact .nil false
  | line line ls hline ih =>
    rw [repairLines_cons hline]
    exact .outside (by rwa [hline])
  | unclosed opening body hopen hbody =>
    rw [repairLines_unclosed hopen hbody]
    refine .outside ?_
    rw [hopen]
    simpa using Alike.append_body (length_repair body) hbody (isFence_repair hbody) (.nil true)
  | closed opening body closing ls hopen hbody hclosing ih =>
    rw [repairLines_closed hopen hbody hclosing]
    refine .outside ?_
    rw [hopen]
    exact .append_body (length_repair body) hbody (isFence_repair hbody) (.closing hclosing ih)

/-! ## Bodies by their places -/

theorem between_eq (front : List Text) (line : Text) (body ls : List Text) :
    between (front ++ line :: (body ++ ls)) front.length (front.length + 1 + body.length) = body := by
  have hlines : front ++ line :: (body ++ ls) = (front ++ [line]) ++ (body ++ ls) := by simp
  have hlength : (front ++ [line]).length = front.length + 1 := by simp
  rw [between, hlines, ← hlength, List.take_length_add_append, List.take_left, List.drop_left]

theorem isOpenAt_append (hfront : isOpenAfter false front = false) (ls : List Text) (i : Nat) :
    isOpenAt (front ++ ls) (front.length + i) = isOpenAt ls i := by
  rw [isOpenAt, List.take_length_add_append, isOpenAfter_append, hfront]
  rfl

namespace Encloses

theorem append (hfront : isOpenAfter false front = false) (h : Encloses ls o c) :
    Encloses (front ++ ls) (front.length + o) (front.length + c) := by
  have hget (i : Nat) : (front ++ ls)[front.length + i]? = ls[i]? := by
    rw [List.getElem?_append_right (Nat.le_add_right _ _), Nat.add_sub_cancel_left]
  refine {
    outside := (isOpenAt_append hfront ls o).trans h.outside
    opens := by simpa only [hget] using h.opens
    lt := Nat.add_lt_add_left h.lt _
    le := by rw [List.length_append]; exact Nat.add_le_add_left h.le _
    inside := ?_
    closes := by simpa only [hget] using h.closes }
  intro i ho hc line hline
  obtain ⟨k, rfl⟩ := Nat.exists_eq_add_of_le (Nat.le_of_add_right_le (Nat.le_of_lt ho))
  exact h.inside k (by omega) (by omega) line (by rwa [hget] at hline)

/-- A diagram at the start of the lines, whose body runs up to a fence or to the end. -/
theorem of_body (hopen : opensDiagram opening = true)
    (hbody : ∀ line ∈ body, isFence line = false) (hls : ∀ line ∈ ls.head?, isFence line = true) :
    Encloses (opening :: (body ++ ls)) 0 (body.length + 1) := by
  refine {
    outside := rfl
    opens := ⟨opening, rfl, hopen⟩
    lt := Nat.succ_pos _
    le := by simp
    inside := ?_
    closes := ?_ }
  · intro i ho hc line hline
    obtain ⟨k, rfl⟩ := Nat.exists_eq_add_of_lt ho
    have hk : (body ++ ls)[k]? = some line := by simpa using hline
    rw [List.getElem?_append_left (by omega)] at hk
    exact hbody line (List.mem_of_getElem? hk)
  · intro line hline
    have hhead : (body ++ ls)[body.length]? = some line := by simpa using hline
    rw [List.getElem?_append_right (Nat.le_refl _), Nat.sub_self, ← List.head?_eq_getElem?] at hhead
    exact hls line hhead

theorem isFence_between (h : Encloses lines o c) :
    ∀ line ∈ between lines o c, isFence line = false := by
  intro line hline
  obtain ⟨k, hk⟩ := List.mem_iff_getElem?.1 hline
  rw [between, List.getElem?_drop, List.getElem?_take] at hk
  split at hk
  · next hlt => exact h.inside (o + 1 + k) (by omega) hlt line hk
  · cases hk

/-- The lines in front of the diagram, its body, and what follows it. -/
theorem exists_eq (h : Encloses lines o c) :
    ∃ front opening body ls, lines = front ++ opening :: (body ++ ls) ∧ o = front.length ∧
      c = front.length + 1 + body.length ∧ isOpenAfter false front = false ∧
      opensDiagram opening = true ∧ (∀ line ∈ body, isFence line = false) ∧
      ∀ line ∈ ls.head?, isFence line = true := by
  obtain ⟨opening, hget, hopen⟩ := h.opens
  have ho : o < lines.length := h.lt.trans_le h.le
  have hle : o + 1 ≤ (lines.take c).length := by
    rw [List.length_take_of_le h.le]
    exact h.lt
  have hbehind : lines.drop (o + 1) = between lines o c ++ lines.drop c := by
    conv_lhs => rw [← List.take_append_drop c lines, List.drop_append_of_le_length hle]
    rfl
  refine ⟨lines.take o, opening, between lines o c, lines.drop c, ?_, ?_, ?_, h.outside, hopen,
    h.isFence_between, ?_⟩
  · have hdrop : lines.drop o = opening :: lines.drop (o + 1) := by
      rw [List.drop_eq_getElem_cons ho, (List.getElem?_eq_some_iff.1 hget).2]
    rw [← hbehind, ← hdrop, List.take_append_drop]
  · rw [List.length_take_of_le ho.le]
  · rw [between, List.length_drop, List.length_take_of_le h.le, List.length_take_of_le ho.le]
    have := h.lt
    omega
  · intro line hline
    exact h.closes line (by rwa [List.head?_drop] at hline)

theorem of_alike (hlike : Alike false lines out) (h : Encloses lines o c) : Encloses out o c := by
  have hlength : out.length = lines.length := by
    simpa using congrArg List.length hlike.map_isFence
  have hfence (i : Nat) (answer : Bool) (hline : ∀ line, lines[i]? = some line →
      isFence line = answer) : ∀ line, out[i]? = some line → isFence line = answer := by
    intro line hout
    have hboth : (lines[i]?).map isFence = (out[i]?).map isFence := by
      rw [← List.getElem?_map, ← List.getElem?_map, hlike.map_isFence]
    rw [hout] at hboth
    obtain ⟨line', hline', heq⟩ := Option.map_eq_some_iff.1 hboth
    rw [← heq]
    exact hline line' hline'
  obtain ⟨opening, hget, hopen⟩ := h.opens
  exact {
    outside := (hlike.isOpenAfter_take o).trans h.outside
    opens := ⟨opening, hlike.getElem?_eq hget (Or.inl h.outside), hopen⟩
    lt := h.lt
    le := hlength ▸ h.le
    inside := fun i ho hc => hfence i false (h.inside i ho hc)
    closes := hfence c true h.closes }

end Encloses

theorem InBody.append (hfront : isOpenAfter false front = false) (h : InBody ls i) :
    InBody (front ++ ls) (front.length + i) := by
  obtain ⟨o, c, hends, ho, hc⟩ := h
  exact ⟨_, _, hends.append hfront, Nat.add_lt_add_left ho _, Nat.add_lt_add_left hc _⟩

/-- A line that is read while a diagram is open, and does not close it, stands in a body. -/
theorem inBody_of_isOpenAt (hline : lines[i]? = some line) (hopen : isOpenAt lines i = true)
    (hfence : isFence line = false) : InBody lines i := by
  -- Lines behind a closed diagram are left to the induction.
  have hrest : ∀ (front ls : List Text), isOpenAfter false front = false →
      (∀ k, ls[k]? = some line → isOpenAt ls k = true → InBody ls k) → ∀ i, front.length ≤ i →
      (front ++ ls)[i]? = some line → isOpenAt (front ++ ls) i = true → InBody (front ++ ls) i := by
    intro front ls hfront ih i hi hline hopen
    obtain ⟨k, rfl⟩ := Nat.exists_eq_add_of_le hi
    rw [List.getElem?_append_right hi, Nat.add_sub_cancel_left] at hline
    rw [isOpenAt_append hfront] at hopen
    exact (ih k hline hopen).append hfront
  have hpos : ∀ {lines i}, isOpenAt lines i = true → 0 < i := by
    intro lines i hopen
    refine Nat.pos_of_ne_zero ?_
    rintro rfl
    cases hopen
  induction lines using Block.induct generalizing i with
  | nil => simp at hline
  | line first ls hfirst ih =>
    exact hrest [first] ls hfirst (fun k => ih) i (hpos hopen) hline hopen
  | unclosed opening body hopens hbody =>
    have hi : i < (opening :: body).length := (List.getElem?_eq_some_iff.1 hline).1
    have hends : Encloses (opening :: (body ++ [])) 0 (body.length + 1) :=
      .of_body hopens hbody (by simp)
    rw [List.append_nil] at hends
    exact ⟨0, _, hends, hpos hopen, hi⟩
  | closed opening body closing ls hopens hbody hclosing ih =>
    have hends : Encloses (opening :: (body ++ closing :: ls)) 0 (body.length + 1) :=
      .of_body hopens hbody (by simpa using hclosing)
    have hi := hpos hopen
    rcases Nat.lt_trichotomy i (body.length + 1) with hlt | rfl | hgt
    · exact ⟨0, _, hends, hi, hlt⟩
    · exact absurd (hends.closes line hline) (by simp [hfence])
    · have hfront : isOpenAfter false (opening :: (body ++ [closing])) = false := by
        simp [hopens, isOpenAfter_append, isOpenAfter_body hbody, hclosing]
      have hlines : opening :: (body ++ closing :: ls) = opening :: (body ++ [closing]) ++ ls := by
        simp
      rw [hlines] at hline hopen ⊢
      exact hrest _ ls hfront (fun k => ih) i (by simpa [Nat.succ_le_iff] using hgt) hline hopen

/-! ## Whole pages -/

theorem between_repairLines (h : Encloses lines o c) :
    between (repairLines lines) o c = repair (between lines o c) := by
  obtain ⟨front, opening, body, ls, rfl, rfl, rfl, hfront, hopen, hbody, hls⟩ := h.exists_eq
  have hlength := length_repairLines front
  obtain ⟨rest, hrest⟩ : ∃ rest, repairLines (opening :: (body ++ ls)) =
      opening :: (repair body ++ rest) := by
    cases ls with
    | nil => exact ⟨[], by simp [repairLines_unclosed hopen hbody]⟩
    | cons closing ls =>
      exact ⟨_, repairLines_closed hopen hbody (hls closing rfl) ls⟩
  rw [between_eq, repairLines_append hfront, hrest, ← hlength, ← length_repair body, between_eq]

/-- Repairing the diagrams of a page changes nothing but their bodies. The new lines are as many as
the old ones; a line outside all bodies, fence or not, is the same at the same place; every body is
the repaired body, of the same length and without a fence; and the new lines have the same bodies at
the same places. -/
theorem repairDiagrams_bodies (page : Text) :
    ∃ out, repairDiagrams page = Lines.join out page ∧
      out.length = (Lines.ofText page).length ∧
      (∀ i, ¬InBody (Lines.ofText page) i → out[i]? = (Lines.ofText page)[i]?) ∧
      (∀ o c, Encloses (Lines.ofText page) o c →
        between out o c = repair (between (Lines.ofText page) o c) ∧
          (between out o c).length = (between (Lines.ofText page) o c).length ∧
          ∀ line ∈ between out o c, isFence line = false) ∧
      ∀ o c, Encloses out o c ↔ Encloses (Lines.ofText page) o c := by
  have hlike := alike_repairLines (Lines.ofText page)
  refine ⟨repairLines (Lines.ofText page), rfl, length_repairLines _, ?_, ?_, ?_⟩
  · intro i hbody
    cases hline : (Lines.ofText page)[i]? with
    | none =>
      rwa [List.getElem?_eq_none_iff, length_repairLines, ← List.getElem?_eq_none_iff]
    | some line =>
      refine hlike.getElem?_eq hline ?_
      by_contra hkept
      rw [not_or, Bool.not_eq_false, Bool.not_eq_true] at hkept
      exact hbody (inBody_of_isOpenAt hline hkept.1 hkept.2)
  · intro o c hends
    have hbetween := between_repairLines hends
    refine ⟨hbetween, by rw [hbetween, length_repair], ?_⟩
    rw [hbetween]
    exact isFence_repair hends.isFence_between
  · exact fun o c => ⟨Encloses.of_alike hlike.symm, Encloses.of_alike hlike⟩

/-- Outside a diagram the text of a node stays, and a diagram that is never closed is repaired. -/
example : String.ofList (repairDiagrams
    "A[\"- a\"]\n```mermaid\n```\n```\nB[\"- b\"]\n```mermaid\nC[\"- c\"]".toList) =
    "A[\"- a\"]\n```mermaid\n```\n```\nB[\"- b\"]\n```mermaid\nC[\"Unsupported markdown: list\"]" := by
  decide +kernel

end WikiTidy.Diagram
