import WikiTidy.Text.Order

/-!
# Sets of characters

A set is written between brackets: single characters, ranges, and named classes such as
`[:digit:]`; a set that starts with `^` holds all other characters. A closing bracket that comes
first, and any character behind a backslash, is an ordinary one. `CharSet.read?` reads a set. Its
members are 16-bit code units.
-/

namespace WikiTidy.Glob

open Text

/-- A set of characters, as ranges of code units. -/
structure CharSet where
  negated : Bool
  ranges : List (Nat × Nat)
deriving DecidableEq, Repr

/-- The unit is in the set. -/
def CharSet.has (set : CharSet) (unit : Nat) : Bool :=
  set.negated != set.ranges.any fun (low, high) => low ≤ unit && unit ≤ high

/-- A range between two characters. -/
def range (low high : Char) : Nat × Nat := (low.toNat, high.toNat)

/-- The named classes. -/
def namedClasses : List (Text × List (Nat × Nat)) :=
  [ ("alnum".toList, [range 'a' 'z', range 'A' 'Z', range '0' '9']),
    ("alpha".toList, [range 'a' 'z', range 'A' 'Z']),
    ("ascii".toList, [(0x00, 0x7F)]),
    ("blank".toList, [range ' ' ' ', range '\t' '\t']),
    ("cntrl".toList, [(0x00, 0x1F), (0x7F, 0x7F)]),
    ("digit".toList, [range '0' '9']),
    ("graph".toList, [(0x21, 0x7E)]),
    ("lower".toList, [range 'a' 'z']),
    ("print".toList, [(0x20, 0x7E)]),
    ("punct".toList, [(0x21, 0x2F), (0x3A, 0x40), (0x5B, 0x60), (0x7B, 0x7E)]),
    ("space".toList, [(0x09, 0x0D), (0x20, 0x20)]),
    ("upper".toList, [range 'A' 'Z']),
    ("word".toList, [range 'A' 'Z', range 'a' 'z', range '0' '9', range '_' '_']),
    ("xdigit".toList, [range 'A' 'F', range 'a' 'f', range '0' '9']) ]

/-- The class that an escaped letter stands for. -/
def escapedClass? (c : Char) : Option (List (Nat × Nat)) :=
  if c = 'd' then some [range '0' '9']
  else if c = 'w' then some [range 'A' 'Z', range 'a' 'z', range '0' '9', range '_' '_']
  else if c = 's' then
    some [(0x09, 0x0D), (0x20, 0x20), (0xA0, 0xA0), (0x1680, 0x1680), (0x2000, 0x200A),
      (0x2028, 0x2029), (0x202F, 0x202F), (0x205F, 0x205F), (0x3000, 0x3000), (0xFEFF, 0xFEFF)]
  else none

/-- One thing that stands in a set. -/
inductive Atom where
  | char (unit : Nat) (escaped : Bool)
  | class (ranges : List (Nat × Nat))

/-- The class `[:name:]` at the head of a text. -/
def namedClass? (s : Text) : Option (List (Nat × Nat) × Text) := do
  let s ← after? ['[', ':'] s
  let rest ← after? [':', ']'] (s.dropWhile (· != ':'))
  let entry ← namedClasses.find? fun e => e.1 == s.takeWhile (· != ':')
  return (entry.2, rest)

/-- The atoms of a set up to its closing bracket, which is not the first of them. -/
def atoms? : Nat → Bool → Text → Option (List Atom × Text)
  | 0, _, _ => none
  | fuel + 1, first, s =>
    match namedClass? s with
    | some (ranges, s) => do
      let (atoms, s) ← atoms? fuel false s
      return (.class ranges :: atoms, s)
    | none =>
      match s with
      | [] => none
      | '\\' :: c :: s => do
        let (atoms, s) ← atoms? fuel false s
        let atom := match escapedClass? c with
          | some ranges => [.class ranges]
          | none => (charUnits c).map (.char · true)
        return (atom ++ atoms, s)
      | c :: s =>
        if c = ']' ∧ ¬ first then some ([], s)
        else do
          let (atoms, s) ← atoms? fuel false s
          return ((charUnits c).map (.char · false) ++ atoms, s)

/-- The ranges of atoms, unless one of them runs backwards. A dash, which is the unit 0x2D, between
two characters makes them the ends of a range. -/
def ranges? : List Atom → Option (List (Nat × Nat))
  | .char low _ :: .char 0x2D false :: .char high _ :: rest =>
    if low ≤ high then (ranges? rest).map ((low, high) :: ·) else none
  | .char unit _ :: rest => (ranges? rest).map ((unit, unit) :: ·)
  | .class ranges :: rest => (ranges? rest).map (ranges ++ ·)
  | [] => some []

/-- Some atom is a class. -/
def hasClass (atoms : List Atom) : Bool := atoms.any fun | .class _ => true | .char _ _ => false

/-- The characters that have a meaning in an expression. -/
def specialChars : List Char := "-*+?.^$\x7b\x7d(|)[]".toList

/-- A set behind its opening bracket, if it is closed: the set, or nothing if one of its ranges runs
backwards, and the text it was read from. A negated set without named classes holds no slash. -/
def CharSet.read? (s : Text) : Option (Option CharSet × Text × Text) := do
  let (negated, body) := match s with
    | '^' :: body => (true, body)
    | body => (false, body)
  let (atoms, rest) ← atoms? (body.length + 1) true body
  let slash := if negated && !hasClass atoms then [range '/' '/'] else []
  return ((ranges? atoms).map fun ranges => ⟨negated, slash ++ ranges⟩,
    s.take (s.length - rest.length), rest)

/-- A set without special characters also stands for itself, brackets and all. -/
def standsForItself (source : Text) : Bool :=
  source.dropLast.all fun c => !specialChars.contains c

end WikiTidy.Glob
