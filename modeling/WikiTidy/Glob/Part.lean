import WikiTidy.Glob.CharSet
import WikiTidy.Text.Order

/-!
# Parts of a glob

A glob is a sequence of parts: characters, wildcards, sets of characters, and groups of
alternatives. `Part.read` reads the parts of a pattern.

**Groups** are written `{a,b}` or `(a|b)`, the latter perhaps behind one of `@`, `?`, `*`, `+`
and `!`. A brace with two periods in it is a set, from one of its ends to the other; a brace with
neither comma nor periods is an ordinary character, and so is a parenthesis that is never closed.
-/

namespace WikiTidy.Glob

open Text

mutual

/-- One part of a glob. -/
inductive Part where
  | literal (c : Char)
  | anyChar
  /-- A run of stars. -/
  | stars (count : Nat)
  | slash
  /-- A set, and the text that it stands for besides. -/
  | set (set : CharSet) (itself : Option Text)
  | group (alternatives : List (List Part)) (form : Form)
  | optional (part : Part)
  | repeated (part : Part)

/-- What a group does with its alternatives. -/
inductive Form where
  | once
  /-- Once, and written with braces. -/
  | braces
  | optional
  | anyTimes
  | atLeastOnce
  /-- Anything in the name that does not start with an alternative. -/
  | notStart
  /-- Anything but an alternative, where nothing follows; `wide` lets it go on over slashes. -/
  | notWhole (wide : Bool)
  /-- Anything in the name that does not start with an alternative and what follows the group. -/
  | notBefore (follows : List (List Part)) (wide : Bool)

end

/-- The part that an escaped character stands for: a class or its complement, or the character. -/
def Part.ofEscaped (c : Char) : Part :=
  match escapedClass? c with
  | some ranges => .set ⟨false, ranges⟩ none
  | none =>
    match if 'A' ≤ c && c ≤ 'Z' then escapedClass? (Char.ofNat (c.toNat + 32)) else none with
    | some ranges => .set ⟨true, ranges⟩ none
    | none => .literal c

/-- Why a pattern cannot be read. -/
inductive Flaw where
  /-- A parenthesis is never closed. -/
  | unclosed
  /-- The pattern stands for nothing. -/
  | invalid
deriving DecidableEq, Repr

/-- A set behind its opening bracket, if it is closed. -/
def setPart? (s : Text) : Option (Except Flaw Part × Text) := do
  let (set, source, rest) ← CharSet.read? s
  let itself := if standsForItself source then some ('[' :: source) else none
  return match set with
    | some set => (.ok (.set set itself), rest)
    | none => (.error .invalid, rest)

/-! ## Braces with two periods -/

/-- The texts between the occurrences of two periods. -/
def betweenPeriods : Text → List Text
  | [] => [[]]
  | '.' :: '.' :: s => [] :: betweenPeriods s
  | c :: s =>
    match betweenPeriods s with
    | [] => [[c]]
    | t :: ts => (c :: t) :: ts

/-- The set from one end to the other, or, where it would run backwards, the ends as they are
written with any two characters between them. -/
def ofEnds (ends : List Text) : List Part :=
  let sorted := sortBy Text.before ends
  match ranges? ((units (Text.join ['-'] sorted)).map (.char · false)) with
  | some ranges => [.set ⟨false, ranges⟩ none]
  | none => (sorted.map fun t => t.map Part.literal).intersperse [.anyChar, .anyChar] |>.flatten

/-! ## Reading -/

/-- What ends a sequence. -/
inductive Scope where
  | pattern
  | parenthesis
  | brace
deriving DecidableEq, Repr

/-- What was read of the alternatives of a scope: those that are complete and the one that is being
read, last part first. -/
structure Draft where
  complete : List (List Part)
  current : List Part

namespace Draft

/-- Nothing was read. -/
def start : Draft := ⟨[], []⟩

/-- Adds a part. -/
def add (d : Draft) (p : Part) : Draft := { d with current := p :: d.current }

/-- Adds several parts. -/
def addAll (d : Draft) (ps : List Part) : Draft := { d with current := ps.reverse ++ d.current }

/-- Adds a star to a run of stars. -/
def addStar (d : Draft) : Draft :=
  match d.current with
  | .stars n :: ps => { d with current := .stars (n + 1) :: ps }
  | ps => { d with current := .stars 1 :: ps }

/-- Starts the next alternative. -/
def next (d : Draft) : Draft := ⟨d.current.reverse :: d.complete, []⟩

/-- All alternatives in order. -/
def finish (d : Draft) : List (List Part) := (d.current.reverse :: d.complete).reverse

/-- Nothing stands in the scope yet. -/
def isEmpty (d : Draft) : Bool := d.complete.isEmpty && d.current.isEmpty

/-- Changes the last part. -/
def mapLast (d : Draft) (f : Part → Part) : Draft :=
  match d.current with
  | p :: ps => { d with current := f p :: ps }
  | [] => d

end Draft

/-- The form of a group behind a character. -/
def formBehind? (c : Char) : Option Form :=
  if c = '@' then some .once
  else if c = '?' then some .optional
  else if c = '*' then some .anyTimes
  else if c = '+' then some .atLeastOnce
  else none

/-- A text of a period and a name without periods, slashes and backslashes. -/
def isPlainExtension : Text → Bool
  | '.' :: c :: s => (c :: s).all fun c => c != '\\' && c != '/' && c != '.'
  | _ => false

/-- Reads the alternatives of a scope up to what ends it. `depth` bounds the number of steps. -/
def readScope : Nat → Scope → Draft → Text → Except Flaw (List (List Part) × Text)
  | 0, _, _, _ => .error .invalid
  | depth + 1, scope, draft, s =>
    -- A group behind its opening parenthesis.
    let group := fun (rest : Text) (form : List (List Part) → Text → Except Flaw Form) => do
      let (alternatives, s) ← readScope depth .parenthesis .start rest
      let form ← form alternatives s
      readScope depth scope (draft.add (.group alternatives form)) s
    match s with
    | [] =>
      match scope with
      | .pattern => .ok (draft.finish, [])
      | .parenthesis => .error .unclosed
      | .brace => .error .invalid
    | '\\' :: '/' :: s => readScope depth scope draft ('/' :: s)
    | '\\' :: '.' :: s => readScope depth scope draft ('.' :: s)
    | '\\' :: c :: s => readScope depth scope (draft.add (.ofEscaped c)) s
    | '"' :: s =>
      let quoted := (s.takeWhile (· != '"')).map Part.literal
      readScope depth scope (draft.addAll quoted) ((s.dropWhile (· != '"')).drop 1)
    | '!' :: '(' :: rest =>
      let negation := fun (_ : List (List Part)) (s : Text) =>
        let inner := rest.take (rest.length - s.length - 1)
        let wide := 1 < inner.length && inner.contains '/'
        if inner.contains '*' && isPlainExtension s then do
          let (follows, _) ← readScope depth .pattern .start s
          return Form.notBefore follows wide
        else if wide || s.all (· == ')') then .ok (.notWhole wide)
        else .ok .notStart
      match group rest negation with
      | .error .unclosed => readPlain depth scope draft '!' ('(' :: rest)
      | done => done
    | c :: '(' :: rest =>
      match if rest.head? = some '?' then none else formBehind? c with
      | some form =>
        match group rest fun _ _ => .ok form with
        | .error .unclosed => readPlain depth scope draft c ('(' :: rest)
        | done => done
      | none => readPlain depth scope draft c ('(' :: rest)
    | c :: s => readPlain depth scope draft c s
where
  /-- Goes on behind a character that opens no group of a special form. -/
  readPlain (depth : Nat) (scope : Scope) (draft : Draft) (c : Char) (s : Text) :
      Except Flaw (List (List Part) × Text) :=
    match depth with
    | 0 => .error .invalid
    | depth + 1 =>
      if c = '(' then
        match readScope depth .parenthesis .start s with
        | .ok (alternatives, s) =>
          readScope depth scope (draft.add (.group alternatives .once)) s
        | .error .unclosed => readScope depth scope (draft.add (.literal '(')) s
        | .error flaw => .error flaw
      else if c = ')' ∧ scope = .parenthesis then .ok (draft.finish, s)
      else if c = '[' then
        match setPart? s with
        | some (.ok part, s) => readScope depth scope (draft.add part) s
        | some (.error flaw, _) => .error flaw
        | none => readScope depth scope (draft.add (.literal '[')) s
      else if c = '\x7b' then do
        let (alternatives, rest) ← readScope depth .brace .start s
        let inner := s.take (s.length - rest.length - 1)
        match alternatives with
        | [parts] =>
          match betweenPeriods inner with
          | [_] =>
            readScope depth scope
              (draft.addAll (.literal '\x7b' :: parts ++ [.literal '\x7d'])) rest
          | ends => readScope depth scope (draft.addAll (ofEnds ends)) rest
        | _ => readScope depth scope (draft.add (.group alternatives .braces)) rest
      else if c = '\x7d' ∧ scope = .brace then .ok (draft.finish, s)
      else if c = '|' ∨ (c = ',' ∧ scope = .brace) then readScope depth scope draft.next s
      else if c = '/' then readScope depth scope (draft.add .slash) s
      else if c = '*' then readScope depth scope draft.addStar s
      else if c = '?' then
        if scope = .parenthesis ∧ draft.isEmpty then
          readScope depth scope (draft.add (.literal '?')) s
        else
          match draft.current with
          | .group _ .braces :: _ => readScope depth scope (draft.add .anyChar) s
          | .group _ _ :: _ => readScope depth scope (draft.mapLast .optional) s
          | _ => readScope depth scope (draft.add .anyChar) s
      else if c = '+' then
        match draft.current with
        | .group _ _ :: _ | .set _ _ :: _ =>
          readScope depth scope (draft.mapLast .repeated) s
        | _ :: _ =>
          if scope = .parenthesis then readScope depth scope (draft.mapLast .repeated) s
          else readScope depth scope (draft.add (.literal '+')) s
        | [] => readScope depth scope (draft.add (.literal '+')) s
      else readScope depth scope (draft.add (.literal c)) s

/-- The alternatives that a pattern consists of. -/
def Part.read (pattern : Text) : Except Flaw (List (List Part)) :=
  (readScope (2 * pattern.length + 2) .pattern .start pattern).map Prod.fst

end WikiTidy.Glob
