import WikiTidy.Proofs.Diagram.ListItem

/-!
# What is left in a cleaned text

**Theorem (`cleaning_leaves_uncovered_links`).** A cleaned text holds no list and no bare address.
It holds no link in brackets exactly if cleaning it again changes nothing, and exactly if its
addresses uncover none (`Uncovers`). A text that is cleaned twice holds nothing of the kind.

Links in brackets are replaced first, and none is left by that (`hits_firstPass`). Addresses go up
to the next blank, though, so one can hold a bracket that closed the name of what was no link:
in `[a http://x] b](c)` no parenthesis follows the first `]`. When the address is replaced, the name
goes on to the second `]`, and a link shows. An address that holds no `]` uncovers nothing
(`exists_hit_of_uncovers`).
-/

namespace WikiTidy.Diagram

open Text

variable {s r w text line : Text} {lines : List Text} {b : Bool} {c d : Char}
  {pieces name back : List (Piece Unit)} {piece : Piece Unit}

/-! ## Links and addresses as they are written -/

/-- What is a link in brackets: a name that holds no bracket that closes, and behind it an address
that does not end at once. -/
theorem bracketLink_ne_none_iff :
    bracketLink b s ≠ none ↔ ∃ name c rest, name ≠ [] ∧ ']' ∉ name ∧ c ≠ ')' ∧ ')' ∈ rest ∧
      s = '[' :: (name ++ ']' :: '(' :: c :: rest) := by
  rw [Option.ne_none_iff_exists']
  constructor
  · rintro ⟨⟨u, r⟩, h⟩
    simp only [bracketLink, Option.bind_eq_bind, Option.bind_eq_some_iff, after?_eq_some_iff] at h
    obtain ⟨s₁, rfl, ⟨name, s₂⟩, hname, s₃, hmiddle, ⟨address, s₄⟩, haddress, s₅, hclose, -⟩ := h
    obtain ⟨rfl, hne, hall, -⟩ := run?_eq_some hname
    obtain ⟨rfl, hne', hall', -⟩ := run?_eq_some haddress
    obtain ⟨c, address, rfl⟩ := List.exists_cons_of_ne_nil hne'
    dsimp only at hmiddle hclose
    refine ⟨name, c, address ++ ')' :: s₅, hne, ?_, ?_, by simp, ?_⟩
    · exact fun hmem => absurd (hall ']' hmem) (by decide)
    · simpa using hall' c List.mem_cons_self
    · simp [hmiddle, hclose]
  · rintro ⟨name, c, rest, hne, hname, hc, hmem, rfl⟩
    obtain ⟨address, r, rfl, haddress⟩ := List.eq_append_cons_of_mem hmem
    have hstop : ')' ∉ c :: address := by simp [haddress, Ne.symm hc]
    have hname' : run? (· != ']') (name ++ ']' :: '(' :: c :: (address ++ ')' :: r)) =
        some (name, ']' :: '(' :: c :: (address ++ ')' :: r)) :=
      run?_append hne (all_ne_of_notMem hname) (by simp)
    have haddress' : run? (· != ')') (c :: address ++ ')' :: r) = some (c :: address, ')' :: r) :=
      run?_append (List.cons_ne_nil _ _) (all_ne_of_notMem hstop) (by simp)
    rw [List.cons_append] at haddress'
    exact ⟨((), r), by simp [bracketLink, after?, hname', haddress']⟩

theorem bareAddress_ne_none_iff :
    bareAddress b s ≠ none ↔ ∃ w c r, w ∈ ["ttp://".toList, "ttps://".toList] ∧ isBlank c = false ∧
      s = 'h' :: (w ++ c :: r) := by
  rw [Option.ne_none_iff_exists']
  constructor
  · rintro ⟨⟨u, r⟩, h⟩
    simp only [bareAddress, Option.bind_eq_bind, Option.bind_eq_some_iff, after?_eq_some_iff] at h
    obtain ⟨s₁, rfl, s₂, hslashes, ⟨address, s₃⟩, haddress, -⟩ := h
    obtain ⟨rfl, hne, hall, -⟩ := run?_eq_some haddress
    obtain ⟨c, address, rfl⟩ := List.exists_cons_of_ne_nil hne
    have hc : isBlank c = false := by simpa using hall c List.mem_cons_self
    cases hs : after? ['s'] s₁ with
    | none =>
      rw [skipSecure, hs, Option.getD_none] at hslashes
      exact ⟨"ttp://".toList, c, address ++ s₃, by simp, hc, by simp [hslashes]⟩
    | some t =>
      rw [skipSecure, hs, Option.getD_some] at hslashes
      rw [after?_eq_some_iff] at hs
      exact ⟨"ttps://".toList, c, address ++ s₃, by simp, hc, by simp [hs, hslashes]⟩
  · rintro ⟨w, c, r, hw, hc, rfl⟩
    have hrun : run? (fun c => !isBlank c) (c :: r) =
        some (c :: r.takeWhile fun c => !isBlank c, r.dropWhile fun c => !isBlank c) := by
      simp [run?, hc]
    simp only [List.mem_cons, List.not_mem_nil, or_false] at hw
    rcases hw with rfl | rfl
    · exact ⟨_, by simp [bareAddress, skipSecure, after?, hrun]; rfl⟩
    · exact ⟨_, by simp [bareAddress, skipSecure, after?, hrun]; rfl⟩

/-! ## Searching again -/

/-- An address that is found after remarks were put was there before, and its `h` was passed by. -/
theorem exists_address_of_replace {q : Pattern Unit} (hq : q.IsLocal) (hstart : q.StartsWith d)
    (hd : isBlank d = false) (hr : r <:+ replace q (fun _ => linkRemark) s)
    (hread : bareAddress true r ≠ none) :
    ∃ t, 'h' :: t <:+ s ∧ q true ('h' :: t) = none ∧ bareAddress true ('h' :: t) ≠ none := by
  obtain ⟨front, hfront⟩ := hr
  obtain ⟨w, c, r, hw, hc, rfl⟩ := bareAddress_ne_none_iff.1 hread
  -- No remark has an `h`, and none starts within the scheme.
  obtain ⟨pieces, t, -, hnone, rfl, -, ht⟩ :=
    hq.exists_scan_of_replace_eq_append_cons (fun _ => by decide) hfront.symm
  have hscheme : ∀ w ∈ ["ttp://".toList, "ttps://".toList], 'U' ∉ w := by decide
  obtain ⟨v, rfl, hv⟩ :=
    hq.exists_of_replace_eq_append (fun _ => head?_linkRemark) (hscheme w hw) ht
  obtain ⟨e, v, rfl, he⟩ := exists_cons_of_replace_eq_cons hq hstart hd hc hv
  exact ⟨_, List.suffix_append _ _, hnone, bareAddress_ne_none_iff.2 ⟨w, e, v, hw, he, rfl⟩⟩

theorem hits_dropAddresses (s : Text) :
    hits bareAddress (replace bareAddress (fun _ => linkRemark) s) = 0 := by
  rw [hits_eq_zero_iff bareAddress_isLocal]
  intro r hr
  by_contra hread
  obtain ⟨t, -, hnone, hfound⟩ := exists_address_of_replace bareAddress_isLocal
    bareAddress_startsWith (by decide) hr hread
  exact hfound hnone

/-- The text after its links in brackets are replaced. -/
def firstPass (text : Text) : Text := replace bracketLink (fun _ => linkRemark) text

theorem hits_firstPass_bareAddress (h : hits bareAddress text = 0) :
    hits bareAddress (firstPass text) = 0 := by
  rw [hits_eq_zero_iff bareAddress_isLocal] at h ⊢
  intro r hr
  by_contra hread
  obtain ⟨t, ht, -, hfound⟩ := exists_address_of_replace bracketLink_isLocal
    bracketLink_startsWith (by decide) hr hread
  exact hfound (h _ ht)

/-- A piece of a search covers a text, which starts with a parenthesis that closes only if the piece
is one. -/
theorem exists_source_eq_cons {q : Pattern Unit} (hq : q.IsLocal) (hstart : q.StartsWith d)
    (hd : d ≠ ')') (hmem : piece ∈ scan q s) :
    ∃ c t, piece.source = c :: t ∧ (c = ')' → piece = .plain ')') := by
  cases piece with
  | plain c => exact ⟨c, [], rfl, fun h => by rw [h]⟩
  | hit u v =>
    obtain ⟨t, rfl⟩ := List.head?_eq_some_iff.1 (hq.head?_of_hit_mem hstart hmem)
    exact ⟨d, t, rfl, fun h => absurd h hd⟩

/-- What is left of a search for links in brackets, with a bracket that opens and a part of a name
in front of it, starts with a link if a closed name follows in it. -/
theorem bracketLink_of_scan
    (hback : scan bracketLink r = name ++ .plain ']' :: .plain '(' :: piece :: back)
    (hname : .plain ']' ∉ name) (hpiece : piece ≠ .plain ')') (hend : .plain ')' ∈ back)
    (hw : ']' ∉ w) (hne : w ≠ [] ∨ name ≠ []) : bracketLink true ('[' :: (w ++ r)) ≠ none := by
  induction name generalizing w r with
  | nil =>
    -- The name ends here, so the rest is as it was found.
    have hsource := source_scan bracketLink_isLocal.consumes r
    rw [hback] at hsource
    have hmem : piece ∈ scan bracketLink r := by simp [hback]
    obtain ⟨c, t, hct, hc⟩ :=
      exists_source_eq_cons bracketLink_isLocal bracketLink_startsWith (by decide) hmem
    refine bracketLink_ne_none_iff.2
      ⟨w, c, t ++ back.flatMap Piece.source, ?_, hw, fun h => hpiece (hc h), ?_, ?_⟩
    · exact hne.resolve_right fun h => h rfl
    · exact List.mem_append_right _ (List.mem_flatMap.2 ⟨_, hend, List.mem_singleton_self _⟩)
    · rw [← hsource]
      simp [hct]
  | cons first name ih =>
    rw [List.mem_cons, not_or] at hname
    cases first with
    | plain e =>
      obtain ⟨t, rfl, -, ht⟩ := bracketLink_isLocal.cons_of_scan_eq_plain hback
      have hw' : ']' ∉ w ++ [e] := by
        rw [List.mem_append, List.mem_singleton, not_or]
        exact ⟨hw, fun h => hname.1 (by rw [h])⟩
      have hlink := ih ht hname.2 hw' (Or.inl (by simp))
      rwa [List.append_assoc] at hlink
    | hit u v =>
      -- A link that starts later is one from here, with a longer name.
      obtain ⟨t, -, rfl, hread, -⟩ := bracketLink_isLocal.append_of_scan_eq_hit hback
      have hlink : bracketLink true (v ++ t) ≠ none := by simp [hread]
      obtain ⟨inner, c, rest, -, hinner, hc, hmem, heq⟩ := bracketLink_ne_none_iff.1 hlink
      refine bracketLink_ne_none_iff.2 ⟨w ++ '[' :: inner, c, rest, by simp, ?_, hc, hmem, ?_⟩
      · simp [hw, hinner]
      · simp [heq]

/-! ## Links that show -/

/-- Pieces that print a link in brackets when a remark is put for what was found. -/
def ShowsLink (pieces : List (Piece Unit)) : Prop :=
  ∃ front name piece back,
    pieces = front ++ .plain '[' :: (name ++ .plain ']' :: .plain '(' :: piece :: back) ∧
      name ≠ [] ∧ .plain ']' ∉ name ∧ piece ≠ .plain ')' ∧ .plain ')' ∈ back

/-- A remark for what was found. -/
abbrev remark : Piece Unit → Text := Piece.render fun _ => linkRemark

theorem remark_eq_cons (piece : Piece Unit) : ∃ c t, remark piece = c :: t := by
  cases piece with
  | plain c => exact ⟨c, [], rfl⟩
  | hit u w => exact ⟨'U', _, rfl⟩

theorem mem_flatMap_remark_iff (hc : c ∉ linkRemark) :
    c ∈ pieces.flatMap remark ↔ .plain c ∈ pieces :=
  mem_flatMap_render_iff fun _ => hc

theorem showsLink_iff :
    ShowsLink pieces ↔ ∃ r, r <:+ pieces.flatMap remark ∧ bracketLink true r ≠ none := by
  constructor
  · rintro ⟨front, name, piece, back, rfl, hne, hname, hpiece, hend⟩
    obtain ⟨c, t, hct⟩ := remark_eq_cons piece
    refine ⟨_, ⟨front.flatMap remark, (List.flatMap_append ..).symm⟩, ?_⟩
    refine bracketLink_ne_none_iff.2
      ⟨name.flatMap remark, c, t ++ back.flatMap remark, ?_, ?_, ?_, ?_, ?_⟩
    · obtain ⟨first, name, rfl⟩ := List.exists_cons_of_ne_nil hne
      obtain ⟨e, v, hev⟩ := remark_eq_cons first
      simp [hev]
    · rwa [mem_flatMap_remark_iff (by decide)]
    · rintro rfl
      cases piece with
      | plain e =>
        obtain ⟨rfl, -⟩ := List.cons.inj hct
        exact hpiece rfl
      | hit u w => exact absurd (List.cons.inj hct).1 (by decide)
    · exact List.mem_append_right _ ((mem_flatMap_remark_iff (by decide)).2 hend)
    · simp [Piece.render, hct]
  · rintro ⟨r, ⟨front, hfront⟩, hread⟩
    obtain ⟨name, c, rest, hne, hname, hc, hmem, rfl⟩ := bracketLink_ne_none_iff.1 hread
    -- No remark has a bracket or a parenthesis, so each was passed by.
    obtain ⟨front, pieces, rfl, -, h₁⟩ :=
      exists_of_render_eq_append_cons (fun _ => by decide) hfront.symm
    obtain ⟨name, pieces, rfl, rfl, h₂⟩ := exists_of_render_eq_append_cons (fun _ => by decide) h₁
    obtain ⟨gap, pieces, rfl, hgap, h₃⟩ :=
      exists_of_render_eq_append_cons (t := []) (fun _ => by decide) h₂
    obtain rfl : gap = [] := by
      cases gap with
      | nil => rfl
      | cons piece gap =>
        obtain ⟨e, v, hev⟩ := remark_eq_cons piece
        simp [hev] at hgap
    cases pieces with
    | nil => cases h₃
    | cons piece back =>
      refine ⟨front, name, piece, back, rfl, ?_, ?_, ?_, ?_⟩
      · rintro rfl
        exact hne rfl
      · rwa [← mem_flatMap_remark_iff (by decide)]
      · rintro rfl
        exact hc (List.cons.inj h₃).1.symm
      · rw [← mem_flatMap_remark_iff (by decide)]
        cases piece with
        | plain e => rwa [← (List.cons.inj h₃).2] at hmem
        | hit u w =>
          have hall : ')' ∈ linkRemark ++ back.flatMap remark := by
            rw [show linkRemark ++ back.flatMap remark = c :: rest from h₃]
            exact List.mem_cons_of_mem c hmem
          exact (List.mem_append.1 hall).resolve_left (by decide)

theorem hits_firstPass (text : Text) : hits bracketLink (firstPass text) = 0 := by
  rw [hits_eq_zero_iff bracketLink_isLocal]
  intro r hr
  by_contra hread
  obtain ⟨front, name, piece, back, hscan, hne, hname, hpiece, hend⟩ :=
    showsLink_iff.2 ⟨r, hr, hread⟩
  obtain ⟨t, -, ht⟩ := bracketLink_isLocal.exists_of_scan_eq_append hscan
  obtain ⟨t, rfl, hnone, ht⟩ := bracketLink_isLocal.cons_of_scan_eq_plain ht
  exact bracketLink_of_scan (w := []) ht hname hpiece hend (by simp) (Or.inr hne) hnone

/-! ## Links that addresses uncover -/

/-- A link in brackets shows in the text when its addresses are replaced. -/
def Uncovers (text : Text) : Prop :=
  hasListItem text = false ∧ ShowsLink (scan bareAddress (firstPass text))

/-- **A link is uncovered by an address** that holds the bracket that closed its name too early. -/
theorem exists_hit_of_uncovers (h : Uncovers text) :
    ∃ w, .hit () w ∈ scan bareAddress (firstPass text) ∧ ']' ∈ w := by
  obtain ⟨-, front, name, piece, back, hscan, hne, hname, hpiece, hend⟩ := h
  by_contra hno
  -- Otherwise the name is closed at the same bracket before the addresses are replaced.
  have hlocal := bareAddress_isLocal
  have hstart := bareAddress_startsWith
  obtain ⟨r, htext, hr⟩ := hlocal.exists_of_scan_eq_append hscan
  have hnone : bracketLink true r = none :=
    (hits_eq_zero_iff bracketLink_isLocal).1 (hits_firstPass text) r ⟨_, htext.symm⟩
  have hsource := source_scan hlocal.consumes r
  rw [hr] at hsource
  have hpieces : piece ∈ scan bareAddress r := by simp [hr]
  obtain ⟨c, t, hct, hc⟩ := exists_source_eq_cons hlocal hstart (by decide) hpieces
  refine absurd hnone (bracketLink_ne_none_iff.2 ⟨name.flatMap Piece.source, c,
    t ++ back.flatMap Piece.source, ?_, ?_, fun h => hpiece (hc h), ?_, ?_⟩)
  · obtain ⟨first, name, rfl⟩ := List.exists_cons_of_ne_nil hne
    have hfirst : first ∈ scan bareAddress r := by simp [hr]
    obtain ⟨e, v, hev, -⟩ := exists_source_eq_cons hlocal hstart (by decide) hfirst
    simp [hev]
  · rw [List.mem_flatMap]
    rintro ⟨part, hmem, hpart⟩
    cases part with
    | plain e =>
      rw [← List.mem_singleton.1 hpart] at hmem
      exact hname hmem
    | hit u w => exact hno ⟨w, by simp [hscan, hmem], hpart⟩
  · exact List.mem_append_right _ (List.mem_flatMap.2 ⟨_, hend, List.mem_singleton_self _⟩)
  · rw [← hsource]
    simp [hct]

/-! ## Cleaning again -/

theorem hits_cleanText_bareAddress (text : Text) : hits bareAddress (cleanText text) = 0 := by
  rw [cleanText]
  split
  · decide +kernel
  · exact hits_dropAddresses (firstPass text)

theorem hits_cleanText_bracketLink :
    hits bracketLink (cleanText text) = 0 ↔ ¬Uncovers text := by
  rw [cleanText]
  split
  · next hlist =>
    refine iff_of_true (by decide +kernel) fun h => ?_
    rw [h.1] at hlist
    cases hlist
  · next hlist =>
    rw [hits_eq_zero_iff bracketLink_isLocal, Uncovers, showsLink_iff, not_and]
    constructor
    · rintro h - ⟨r, hr, hread⟩
      exact hread (h r hr)
    · intro h r hr
      by_contra hread
      exact h (by simpa using hlist) ⟨r, hr, hread⟩

theorem cleanText_cleanText_eq_iff :
    cleanText (cleanText text) = cleanText text ↔ hits bracketLink (cleanText text) = 0 := by
  have hlist := hasListItem_cleanText text
  have haddress := hits_cleanText_bareAddress text
  generalize cleanText text = t at hlist haddress ⊢
  have hclean : cleanText t = replace bareAddress (fun _ => linkRemark) (firstPass t) := by
    rw [cleanText, hlist, if_neg Bool.false_ne_true]
    rfl
  rw [hclean]
  constructor
  · intro heq
    -- Each link takes an opening bracket with it, and no remark brings one.
    have hremark : linkRemark.countP (fun c => ['['].contains c) = 0 := by decide
    have hbrackets : (Mark.ofChars ['[']).Falls (1 * hits bracketLink t) (firstPass t) t := by
      refine Mark.falls_replace ?_ t
      intro b s u r h
      obtain ⟨w, rfl⟩ := bracketLink_eq_some h
      refine ⟨'[' :: w, List.cons_ne_nil _ _, rfl, Mark.falls_ofChars (by decide) ?_⟩
      rw [hremark, List.countP_cons_of_pos (by simp)]
      omega
    have haddresses : (Mark.ofChars ['[']).Falls (0 * hits bareAddress (firstPass t))
        (replace bareAddress (fun _ => linkRemark) (firstPass t)) (firstPass t) := by
      refine Mark.falls_replace ?_ (firstPass t)
      intro b s u r h
      obtain ⟨w, rfl⟩ := bareAddress_eq_some h
      refine ⟨'h' :: w, List.cons_ne_nil _ _, rfl, Mark.falls_ofChars (by decide) ?_⟩
      rw [hremark]
      exact Nat.zero_le _
    have hcount := (hbrackets.trans haddresses).count_le
    rw [heq] at hcount
    omega
  · intro hbracket
    have hfirst : firstPass t = t := replace_of_hits_eq_zero _ hbracket
    rw [hfirst]
    exact replace_of_hits_eq_zero _ haddress

/-- **Cleaning a text twice is enough.** No address is left that could uncover a link. -/
theorem cleanText_cleanText_cleanText (text : Text) :
    cleanText (cleanText (cleanText text)) = cleanText (cleanText text) := by
  rw [cleanText_cleanText_eq_iff, hits_cleanText_bracketLink]
  intro h
  obtain ⟨w, hmem, -⟩ := exists_hit_of_uncovers h
  have hnone := hits_firstPass_bareAddress (hits_cleanText_bareAddress text)
  rw [hits, List.countP_eq_zero] at hnone
  exact hnone _ hmem rfl

/-- A line is the same when it is cleaned again exactly if its texts are. -/
theorem cleanLine_cleanLine_eq_iff :
    cleanLine (cleanLine line) = cleanLine line ↔
      ∀ text w, .hit text w ∈ scan nodeText line → cleanText (cleanText text) = cleanText text := by
  constructor
  · intro h text w hmem
    have hscan := congrArg (scan nodeText) h
    rw [scan_cleanLine (cleanLine line), scan_cleanLine, List.map_map, List.map_inj_left] at hscan
    exact (Piece.hit.inj (hscan _ hmem)).1
  · intro h
    rw [cleanLine, replace, scan_cleanLine, List.flatMap_map]
    refine List.flatMap_congr fun piece hmem => ?_
    cases piece with
    | plain c => rfl
    | hit text w => exact congrArg renderText (h text w hmem)

theorem cleanLine_cleanLine_cleanLine (line : Text) :
    cleanLine (cleanLine (cleanLine line)) = cleanLine (cleanLine line) := by
  rw [cleanLine_cleanLine_eq_iff, scan_cleanLine]
  intro text w hmem
  obtain ⟨piece, -, hpiece⟩ := List.mem_map.1 hmem
  cases piece with
  | plain c => cases hpiece
  | hit t v =>
    obtain ⟨rfl, -⟩ := Piece.hit.inj hpiece
    exact cleanText_cleanText_cleanText t

/-- What cleaning leaves. In a cleaned text no list is found and no address, wherever one looks. A
link in brackets is found exactly if the addresses of the text uncover one, and that is exactly when
cleaning the text again changes it. This takes an address that holds a closing bracket. So cleaning
the lines of a diagram again changes nothing exactly if none of their texts uncovers a link. Cleaning
them twice is always enough. -/
theorem cleaning_leaves_uncovered_links (text : Text) (lines : List Text) :
    hasListItem (cleanText text) = false ∧
    (∀ r, r <:+ cleanText text → bareAddress true r = none) ∧
    ((∀ r, r <:+ cleanText text → bracketLink true r = none) ↔ ¬Uncovers text) ∧
    (cleanText (cleanText text) = cleanText text ↔ ¬Uncovers text) ∧
    (Uncovers text → ∃ w, .hit () w ∈ scan bareAddress (firstPass text) ∧ ']' ∈ w) ∧
    cleanText (cleanText (cleanText text)) = cleanText (cleanText text) ∧
    (cleanTexts (cleanTexts lines) = cleanTexts lines ↔
      ∀ line ∈ lines, ∀ text w, .hit text w ∈ scan nodeText line → ¬Uncovers text) ∧
    cleanTexts (cleanTexts (cleanTexts lines)) = cleanTexts (cleanTexts lines) := by
  have hagain : ∀ {t}, cleanText (cleanText t) = cleanText t ↔ ¬Uncovers t :=
    cleanText_cleanText_eq_iff.trans hits_cleanText_bracketLink
  refine ⟨hasListItem_cleanText text, ?_, ?_, hagain, exists_hit_of_uncovers,
    cleanText_cleanText_cleanText text, ?_, ?_⟩
  · exact (hits_eq_zero_iff bareAddress_isLocal).1 (hits_cleanText_bareAddress text)
  · rw [← hits_eq_zero_iff bracketLink_isLocal]
    exact hits_cleanText_bracketLink
  · rw [cleanTexts, cleanTexts, List.map_map, List.map_inj_left]
    refine forall₂_congr fun line _ => ?_
    rw [Function.comp_apply, cleanLine_cleanLine_eq_iff]
    exact forall₃_congr fun text w _ => hagain
  · simp only [cleanTexts, List.map_map]
    exact List.map_congr_left fun line _ => cleanLine_cleanLine_cleanLine line

/-- A bracket that closes within an address, and behind it one that closes the name of a link. -/
def coveredLink : Text := "[a http://x] b](c)".toList

theorem coveredLink_cleaned :
    String.ofList (cleanText coveredLink) = "[a Unsupported markdown: link b](c)" ∧
    bracketLink true (cleanText coveredLink) ≠ none ∧
    cleanText (cleanText coveredLink) ≠ cleanText coveredLink ∧
    cleanTexts (cleanTexts [renderText coveredLink]) ≠ cleanTexts [renderText coveredLink] := by
  decide +kernel

end WikiTidy.Diagram
