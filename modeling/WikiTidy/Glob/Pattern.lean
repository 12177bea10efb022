import WikiTidy.Glob.Part
import WikiTidy.Glob.Regular

/-!
# Patterns that exclude files

A pattern is tested on the path of a file from the root of the site. It matches the path that is
written exactly like it, and every path that its parts describe:

* `*` and `?` stay within one name, and a name that is only `*` is not empty;
* `**` as a whole name stands for any number of names, none included; as the last name behind a
  name that does not end with a star, also for the folder itself; at the start of a name, before a
  group in braces or behind `@`, for anything up to that group, slashes included; elsewhere it is
  the same as `*`, unless the whole pattern is `**` and an extension, which matches in all folders;
* a pattern behind an odd number of exclamation marks matches what the rest of it does not.

`./` at the start of a pattern counts for nothing. A pattern that cannot be read matches nothing but
the path written like it.
-/

namespace WikiTidy.Glob

open Text

/-! ## From parts to expressions -/

/-- Anything in a name. -/
def inName : Regular := .one (· != '/'.toNat)

/-- Any text within a name. -/
def nameRun : Regular := .many inName

/-- Anything that does not end a line. -/
def inLine : Regular := .one fun unit => !isLineEnd (Char.ofNat unit)

/-- Any text within a line: any number of names. -/
def pathRun : Regular := .many inLine

/-- The slash between two names. -/
def slash : Regular := .char '/'

/-- What stands before a part. -/
inductive Before where
  /-- The start of the pattern. -/
  | start
  /-- A parenthesis, or the start of an alternative in braces. -/
  | bracket
  | slash
  /-- A slash at the start of the pattern. -/
  | firstSlash
  /-- A period at the start of a name, or anywhere in a group. -/
  | period
  | star
  | other
deriving DecidableEq, Repr

/-- Where a sequence of parts stands: in a group or not, and whether two stars at its end may go on
over slashes, which they do not where another alternative follows. -/
structure Setting where
  inGroup : Bool
  wideEnd : Bool
deriving DecidableEq, Repr

/-- Two stars with a slash behind them, once more with a slash behind or at the end, add nothing. -/
def collapse (atStart : Bool) : List Part → List Part
  | [] => []
  | p :: ps =>
    let startsNext := match p with
      | .slash => true
      | _ => false
    let ps := collapse startsNext ps
    match atStart, p, ps with
    | true, .stars 2, .slash :: .stars 2 :: [] => [p]
    | true, .stars 2, .slash :: .stars 2 :: .slash :: rest => p :: .slash :: rest
    | _, _, _ => p :: ps

/-- A single star, by what stands before it. -/
def star : Before → Regular
  | .start | .slash | .firstSlash => .both (.ahead inLine) nameRun
  | .period =>
    .all [.notAhead (.both (.optional (.char '.')) (.either slash .atEnd)), .ahead inLine, nameRun]
  | _ => nameRun

/-- What stands behind a character or a slash. -/
def afterLiteral (w : Setting) (before : Before) (c : Char) : Before :=
  if c = '.' ∧ (w.inGroup ∨ before ∈ [.start, .slash, .firstSlash]) then .period else .other

/-- Two stars that stand before these parts may go on over slashes: a group in braces, or once. -/
def isGroupNext : List Part → Bool
  | .group _ .once :: _ | .group _ .braces :: _ => true
  | _ => false

/-- What stands behind a part that is neither a character nor a star. -/
def behind : Part → Before
  | .group _ .braces => .other
  | .group _ _ => .bracket
  | _ => .other

mutual

/-- The expression of a sequence of parts. -/
def compile (w : Setting) (before : Before) : List Part → Regular
  | [] => .empty
  | .slash :: ps =>
    match before, ps with
    | .start, ps => .both slash (compile w .firstSlash ps)
    | _, [.stars 2] =>
      if !w.wideEnd then .both slash nameRun
      else if w.inGroup || before = .star then .both slash pathRun
      else .either (.both slash pathRun) .atEnd
    | _, .stars 2 :: .slash :: ps =>
      let none := if ps.isEmpty && !w.inGroup && w.wideEnd then .never else .atEnd
      .both (.any [.all [slash, pathRun, slash], slash, none]) (compile w .slash ps)
    | _, ps => .both slash (compile w .slash ps)
  | .stars 2 :: .slash :: ps =>
    match before with
    | .start => .both (.any [.empty, slash, .both pathRun slash]) (compile w .slash ps)
    | .slash | .firstSlash | .bracket => .all [pathRun, slash, compile w .slash ps]
    | _ => .all [nameRun, slash, compile w .slash ps]
  | [.stars 2] =>
    match before with
    | .start | .slash | .firstSlash | .bracket => if w.wideEnd then pathRun else nameRun
    | _ => nameRun
  | .stars n :: ps =>
    let run := match before with
      | .start | .slash | .firstSlash | .bracket =>
        if n = 2 && isGroupNext ps then pathRun else nameRun
      | _ => nameRun
    .both (if n = 1 then star before else run) (compile w .star ps)
  | .literal c :: ps => .both (.char c) (compile w (afterLiteral w before c) ps)
  | p :: ps => .both (compilePart p) (compile w (behind p) ps)

/-- The expression of a part that no other part changes. -/
def compilePart : Part → Regular
  | .literal c => .char c
  | .anyChar => inName
  | .stars _ => nameRun
  | .slash => slash
  | .set set none => .one set.has
  | .set set (some text) => .either (.word text) (.one set.has)
  | .group alternatives form =>
    let later := if form matches .braces then .bracket else .other
    compileForm (.any (compileAll true .bracket later alternatives)) form
  | .optional p => .optional (compilePart p)
  | .repeated p => .once (compilePart p)

/-- The expressions of alternatives: what stands before the first of them and before the later ones.
Two stars at the end of one alternative go on over slashes in braces, else only in the last one. -/
def compileAll (inGroup : Bool) (first later : Before) : List (List Part) → List Regular
  | [] => []
  | ps :: rest =>
    compile ⟨inGroup, later = .bracket || rest.isEmpty⟩ first ps ::
      compileAll inGroup later later rest

/-- The expression of a group whose alternatives are `r`. -/
def compileForm (r : Regular) : Form → Regular
  | .once | .braces => r
  | .optional => .optional r
  | .anyTimes => .many r
  | .atLeastOnce => .once r
  | .notStart => .both (.notAhead r) nameRun
  | .notWhole wide => .both (.notAhead (.both r .atEnd)) (if wide then pathRun else nameRun)
  | .notBefore follows wide =>
    let follow := .any (compileAll false .start .other follows)
    .both (.notAhead (.both r follow)) (if wide then pathRun else nameRun)

end

/-! ## Reading a pattern -/

/-- A pattern as it is written, and, if it can be read, what it describes and whether it is
negated. -/
structure Pattern where
  text : Text
  rule : Option (Bool × Regular)

namespace Pattern

/-- Drops `./` at the start, as often as it stands there. -/
def dropHere : Text → Text
  | '.' :: '/' :: s => dropHere s
  | s => s

/-- The exclamation marks at the start that open no group, counted, and the text behind them. -/
def marks : Text → Nat × Text
  | '!' :: '(' :: s => (0, '!' :: '(' :: s)
  | '!' :: s =>
    let (n, rest) := marks s
    (n + 1, rest)
  | s => (0, s)

/-- A pattern in which only `*`, `?` and backslashes have a meaning: it is one name without groups
and sets, and does not start with a star or an exclamation mark. -/
def isPlain (s : Text) : Bool :=
  !startsWith ['*'] s && !startsWith ['!'] s
    && s.all fun c => !"/()[]\x7b\x7d\"".toList.contains c

/-- The parts of a plain pattern; a run of stars is one star. -/
def plainParts : Text → Except Flaw (List Part)
  | [] => .ok []
  | ['\\'] => .error .invalid
  | '\\' :: c :: s => (plainParts s).map (.ofEscaped c :: ·)
  | '*' :: s => (plainParts s).map (.stars 3 :: ·)
  | '?' :: s => (plainParts s).map (.anyChar :: ·)
  | c :: s => (plainParts s).map (.literal c :: ·)

/-- The expression of a plain pattern. -/
def plainRule (s : Text) : Option (Bool × Regular) :=
  match plainParts s with
  | .ok parts => some (false, compile ⟨false, true⟩ .start parts)
  | .error _ => none

/-- The expression of any pattern. -/
def fullRule (s : Text) : Option (Bool × Regular) :=
  let (count, s) := marks s
  match Part.read (dropHere s) with
  | .ok alternatives =>
    let collapsed := alternatives.mapIdx fun i ps => collapse (i == 0) ps
    some (count % 2 == 1, .any (compileAll false .start .other collapsed))
  | .error _ => none

/-- Takes off the extension at the end of a pattern: a period and letters, digits or underscores. -/
def dropExtension? (s : Text) : Option (Text × Text) :=
  match splitLast '.' s with
  | (base, name) =>
    if base.isEmpty || name.isEmpty || !name.all isWordChar then none
    else some (base.dropLast, '.' :: name)

/-- Two names, or the two parts of one, at a period that is followed by something. -/
def aroundPeriod : Regular := .all [nameRun, .char '.', .ahead inLine, nameRun]

/-- The expression of a pattern that is nothing but wildcards and extensions, where it differs from
what its parts describe. -/
def shortRule? : Nat → Text → Option Regular
  | 0, _ => none
  | depth + 1, s =>
    if s = "**".toList then some pathRun
    else if s = "*.*".toList then some aroundPeriod
    else if s = "**/*.*".toList then some (.both (.optional (.both pathRun slash)) aroundPeriod)
    else do
      let (base, extension) ← dropExtension? s
      let r ← shortRule? depth base
      return .both r (.word extension)

/-- Reads a pattern. -/
def ofText (text : Text) : Pattern :=
  let s := (after? ['.', '/'] text).getD text
  let rule := match shortRule? s.length s with
    | some r => some (false, r)
    | none => if isPlain s then plainRule s else fullRule s
  ⟨text, rule⟩

/-- The pattern matches a path. -/
def accepts (p : Pattern) (path : Text) : Bool :=
  path == p.text ||
    match p.rule with
    | none => false
    | some (negated, r) =>
      if negated then path.all (fun c => !isLineEnd c) && !r.accepts path else r.accepts path

end Pattern

end WikiTidy.Glob
