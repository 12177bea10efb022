import WikiTidy.Json.Basic

/-!
# Reading JSON

`Json.read?` reads a text that holds one value and nothing else but blanks. The grammar is the
strict one: no comments, no commas before a closing bracket, no control characters in strings, no
byte order mark. A value nests no deeper than its text is long, which bounds the recursion.
-/

namespace WikiTidy.Json

open Text

/-- The blanks between the parts of a value. -/
def isGap (c : Char) : Bool := c == ' ' || c == '\t' || c == '\n' || c == '\r'

/-- Drops the blanks at the start. -/
def skipGap (s : Text) : Text := s.dropWhile isGap

/-- The value of a hexadecimal digit. -/
def hexDigit? (c : Char) : Option Nat :=
  if '0' ≤ c && c ≤ '9' then some (c.toNat - '0'.toNat)
  else if 'a' ≤ c && c ≤ 'f' then some (c.toNat - 'a'.toNat + 10)
  else if 'A' ≤ c && c ≤ 'F' then some (c.toNat - 'A'.toNat + 10)
  else none

/-- Four hexadecimal digits: a 16-bit code unit. -/
def unit? : Text → Option (Nat × Text)
  | a :: b :: c :: d :: s => do
    let a ← hexDigit? a
    let b ← hexDigit? b
    let c ← hexDigit? c
    let d ← hexDigit? d
    return (((a * 16 + b) * 16 + c) * 16 + d, s)
  | _ => none

/-- The second unit of a character that is escaped as two units. -/
def lowUnit? (s : Text) : Option (Nat × Text) := do
  let s ← after? ['\\', 'u'] s
  let (low, s) ← unit? s
  guard (0xDC00 ≤ low ∧ low ≤ 0xDFFF)
  return (low, s)

/-- Stands for a code unit that is half of a character. -/
def replacement : Char := '\ufffd'

/-- The character of an escape behind `\u`, and the text after it. -/
def escapedUnits? (s : Text) : Option (Char × Text) := do
  let (high, s) ← unit? s
  if 0xD800 ≤ high ∧ high ≤ 0xDBFF then
    match lowUnit? s with
    | some (low, s) => return (Char.ofNat (0x10000 + (high - 0xD800) * 0x400 + (low - 0xDC00)), s)
    | none => return (replacement, s)
  else if 0xDC00 ≤ high ∧ high ≤ 0xDFFF then return (replacement, s)
  else return (Char.ofNat high, s)

/-- The character of an escape behind the backslash, and the text after it. -/
def escaped? : Text → Option (Char × Text)
  | '"' :: s => some ('"', s)
  | '\\' :: s => some ('\\', s)
  | '/' :: s => some ('/', s)
  | 'b' :: s => some ('\x08', s)
  | 'f' :: s => some ('\x0c', s)
  | 'n' :: s => some ('\n', s)
  | 'r' :: s => some ('\r', s)
  | 't' :: s => some ('\t', s)
  | 'u' :: s => escapedUnits? s
  | _ => none

/-- The rest of a string behind its opening quote. -/
def stringBody? : Nat → Text → Option (Text × Text)
  | 0, _ => none
  | _ + 1, [] => none
  | depth + 1, c :: s =>
    if c = '"' then some ([], s)
    else if c = '\\' then do
      let (c, s) ← escaped? s
      let (text, s) ← stringBody? depth s
      return (c :: text, s)
    else if c.toNat < 0x20 then none
    else do
      let (text, s) ← stringBody? depth s
      return (c :: text, s)

/-- A string. -/
def string?? (s : Text) : Option (Text × Text) := do
  let s ← after? ['"'] s
  stringBody? (s.length + 1) s

/-- The whole part of a number: a zero, or digits that start with none. -/
def whole? (s : Text) : Option (Text × Text) :=
  match s with
  | '0' :: s => some (['0'], s)
  | s => run? isDigit s

/-- The places of a number behind its point, if there is a point. -/
def places? (s : Text) : Option (Text × Text) :=
  match s with
  | '.' :: s => do
    let (digits, s) ← run? isDigit s
    return ('.' :: digits, s)
  | s => some ([], s)

/-- A sign of one of the given characters, if there is one. -/
def sign (signs : List Char) (s : Text) : Text × Text :=
  match s with
  | c :: rest => if c ∈ signs then ([c], rest) else ([], s)
  | [] => ([], [])

/-- The exponent of a number, if there is one. -/
def exponent? (s : Text) : Option (Text × Text) :=
  match s with
  | c :: rest =>
    if c = 'e' ∨ c = 'E' then do
      let (mark, rest) := sign ['+', '-'] rest
      let (digits, rest) ← run? isDigit rest
      return (c :: mark ++ digits, rest)
    else some ([], s)
  | [] => some ([], [])

/-- A number. -/
def number? (s : Text) : Option (Text × Text) := do
  let (mark, s) := sign ['-'] s
  let (whole, s) ← whole? s
  let (places, s) ← places? s
  let (exponent, s) ← exponent? s
  return (mark ++ whole ++ places ++ exponent, s)

/-- One of the three words. -/
def word? (s : Text) : Option (Json × Text) :=
  ((after? "null".toList s).map fun s => (null, s))
    <|> ((after? "true".toList s).map fun s => (bool true, s))
    <|> ((after? "false".toList s).map fun s => (bool false, s))

mutual

/-- A value with no more than `depth` steps into it. -/
def value? : Nat → Text → Option (Json × Text)
  | 0, _ => none
  | depth + 1, s =>
    match skipGap s with
    | '{' :: s =>
      match skipGap s with
      | '}' :: s => some (object [], s)
      | s => do
        let (members, s) ← members? depth [] s
        return (object members, s)
    | '[' :: s =>
      match skipGap s with
      | ']' :: s => some (array [], s)
      | s => do
        let (items, s) ← items? depth s
        return (array items, s)
    | s =>
      (string?? s).map (fun (text, s) => (string text, s))
        <|> word? s
        <|> (number? s).map (fun (text, s) => (number text, s))

/-- The items of an array up to its closing bracket. -/
def items? : Nat → Text → Option (List Json × Text)
  | 0, _ => none
  | depth + 1, s => do
    let (item, s) ← value? depth s
    match skipGap s with
    | ']' :: s => return ([item], s)
    | ',' :: s =>
      let (items, s) ← items? depth s
      return (item :: items, s)
    | _ => none

/-- The members of an object up to its closing brace, on top of those that stand before them. -/
def members? : Nat → List (Text × Json) → Text → Option (List (Text × Json) × Text)
  | 0, _, _ => none
  | depth + 1, done, s => do
    let (name, s) ← string?? (skipGap s)
    let s ← after? [':'] (skipGap s)
    let (value, s) ← value? depth s
    let done := Table.put name value done
    match skipGap s with
    | '}' :: s => return (done, s)
    | ',' :: s => members? depth done s
    | _ => none

end

/-- The value that a text holds. -/
def read? (s : Text) : Option Json := do
  let (value, s) ← value? (2 * s.length + 2) s
  guard (s.all isGap)
  return value

end WikiTidy.Json
