import WikiTidy.Numeral.Text
import WikiTidy.Table

/-!
# Command line arguments

Arguments are read from left to right. An argument that starts with dashes is an option, any other
one an operand; behind `--` all are operands.

**Names.** Behind two dashes stands one name; behind any other number of dashes each character is a
name. A name may be followed by an equals sign and a value. Without one, the next argument is the
value unless it starts with a dash; with several names the value belongs to the last.

**Words and flags.** A word option takes its value as it is. A flag takes `true` and `false`; any
other value was meant as an operand and becomes one, in the form of a number if it is a number, and
the flag is on unless the value is empty. `no-` before the name switches an option off.

**Repetition** (`Given`). An option that is given several times under one name has all its values,
in order. Of its two names the one that was given first counts.
-/

namespace WikiTidy.Settings

open Text

/-! ## What an option was given -/

/-- The values of an option: a single one, or all of several. -/
inductive Given (α : Type) where
  | once (value : α)
  | several (values : List α)
deriving DecidableEq, Repr

namespace Given

variable {α : Type}

/-- The values after one more was given. -/
def add (value : α) : Option (Given α) → Given α
  | none => once value
  | some (once first) => several [first, value]
  | some (several values) => several (values ++ [value])

/-- All values in order. -/
def toList : Given α → List α
  | once value => [value]
  | several values => values

/-- Giving one more value puts it behind the others. -/
theorem toList_add (value : α) (g : Option (Given α)) :
    (add value g).toList = (g.map toList).getD [] ++ [value] := by
  match g with
  | none => rfl
  | some (once _) => rfl
  | some (several _) => rfl

end Given

/-- The values of a flag. -/
abbrev Flag := Given Bool

/-- The flag is on; a flag that was given several times always is. -/
def Flag.isOn : Flag → Bool
  | .once b => b
  | .several _ => true

/-- The values of a word option; nothing stands for the value of an option that was switched off. -/
abbrev Word := Given (Option Text)

/-! ## The options -/

/-- The options that are on or off. -/
inductive FlagOption where
  | inPlace
  | dryRun
  | ordinal
  | quiet
  | verbose
  | help
deriving DecidableEq, Repr

/-- The options that take a word. -/
inductive WordOption where
  | config
  | exclude
deriving DecidableEq, Repr

/-- The long name of a flag and, for some, a short one. -/
def FlagOption.names : FlagOption → List Text
  | inPlace => ["in-place".toList]
  | dryRun => ["dry-run".toList]
  | ordinal => ["ordinal".toList]
  | quiet => ["quiet".toList, ['q']]
  | verbose => ["verbose".toList, ['v']]
  | help => ["help".toList, ['h']]

/-- The long and the short name of an option that takes a word. -/
def WordOption.names : WordOption → List Text
  | config => ["config".toList, ['c']]
  | exclude => ["exclude".toList, ['x']]

/-- The names of all flags. -/
def flagNames : List Text :=
  [FlagOption.inPlace, .dryRun, .ordinal, .quiet, .verbose, .help].flatMap FlagOption.names

/-- The names of all options that take a word. -/
def wordNames : List Text := [WordOption.config, .exclude].flatMap WordOption.names

/-- The name under which an operand can be given like an option. -/
def operandName : Text := ['_']

/-! ## Reading -/

/-- What one argument is, seen alone. -/
inductive Argument where
  | onlyOperands
  | operand (text : Text)
  | off (name : Text)
  | option (names : List Text) (value : Text)
deriving DecidableEq, Repr

/-- The name of an option and the value behind its equals sign; the first character always belongs
to the name. -/
def splitValue : Text → Text × Text
  | [] => ([], [])
  | c :: s => (c :: s.takeWhile (· != '='), (s.dropWhile (· != '=')).drop 1)

/-- Tells what an argument is. -/
def Argument.ofText (text : Text) : Argument :=
  let dashes := (text.takeWhile (· == '-')).length
  let body := text.dropWhile (· == '-')
  if text = ['-', '-'] then onlyOperands
  else if dashes = 0 then operand text
  else match after? "no-".toList body with
    | some name => off name
    | none =>
      let (name, value) := splitValue body
      option (if dashes = 2 then [name] else name.map fun c => [c]) value

/-- What was read so far. -/
structure Reading where
  operands : List Text
  flags : Table Text Flag
  words : Table Text Word
deriving DecidableEq, Repr

namespace Reading

/-- Nothing was read yet. -/
def start : Reading := ⟨[], [], []⟩

/-- A text in the form of a number, if it is one. -/
def asNumber (s : Text) : Text := (Numeral.canonical? s).getD s

/-- Switches an option off, which forgets what it was given before. -/
def switchOff (r : Reading) (name : Text) : Reading :=
  if flagNames.contains name then { r with flags := r.flags.put name (.once false) }
  else if wordNames.contains name then { r with words := r.words.put name (.once none) }
  else r

/-- Gives an option a value, or none, which stands for its mere presence. -/
def give (r : Reading) (name : Text) (value : Option Text) : Reading :=
  if wordNames.contains name then
    { r with words := r.words.update name (Given.add (some (value.getD []))) }
  else if flagNames.contains name then
    match value with
    | none => { r with flags := r.flags.update name (Given.add true) }
    | some s =>
      if s = "false".toList then { r with flags := r.flags.update name (Given.add false) }
      else if s = "true".toList then { r with flags := r.flags.update name (Given.add true) }
      else
        { r with
          operands := r.operands ++ [asNumber s]
          flags := r.flags.update name (Given.add (!s.isEmpty)) }
  else if name = operandName then
    { r with operands := r.operands ++ [(value.map asNumber).getD "true".toList] }
  else r

/-- Gives the last of several names a value, and the others none. -/
def giveAll (r : Reading) : List Text → Option Text → Reading
  | [], _ => r
  | [name], value => r.give name value
  | name :: names, value => (r.give name none).giveAll names value

/-- The value of an option that has none behind an equals sign: the next argument, unless it starts
with a dash. -/
def nextValue? : List Text → Option Text
  | [] => none
  | next :: _ => if startsWith ['-'] next then none else some next

/-- Reads arguments. The first one is passed over if it was the value of an option. -/
def readFrom : Bool → Reading → List Text → Reading
  | _, r, [] => r
  | true, r, _ :: args => readFrom false r args
  | false, r, arg :: args =>
    match Argument.ofText arg with
    | .onlyOperands => { r with operands := r.operands ++ args }
    | .operand text => readFrom false { r with operands := r.operands ++ [text] } args
    | .off name => readFrom false (r.switchOff name) args
    | .option names value =>
      if value.isEmpty then
        let next := nextValue? args
        readFrom next.isSome (r.giveAll names next) args
      else readFrom false (r.giveAll names (some value)) args

/-- The value of an option under the first of its names that was given. -/
def lookup {α : Type} (names : List Text) (t : Table Text α) : Option α :=
  (t.find? fun (name, _) => names.contains name).map Prod.snd

/-- The values of a flag. -/
def flag? (r : Reading) (o : FlagOption) : Option Flag := lookup o.names r.flags

/-- The values of a flag; one that was not given is off. -/
def flag (r : Reading) (o : FlagOption) : Flag := (r.flag? o).getD (.once false)

/-- The values of an option that takes a word. -/
def word? (r : Reading) (o : WordOption) : Option Word := lookup o.names r.words

end Reading

/-- What the arguments of a command say. -/
structure Arguments where
  operands : List Text
  inPlace : Flag
  dryRun : Flag
  /-- Whether pages are to be numbered, if the arguments say so either way. -/
  ordinal : Option Bool
  exclude : List Text
  config : Option Word
  quiet : Flag
  verbose : Flag
  help : Flag
deriving DecidableEq, Repr

namespace Arguments

/-- Nothing is asked for. -/
def none : Arguments :=
  { operands := [], inPlace := .once false, dryRun := .once false, ordinal := .none, exclude := []
    config := .none, quiet := .once false, verbose := .once false, help := .once false }

/-- The patterns of an option that takes words: an option that was switched off counts as the
pattern `false`, and empty patterns are dropped. -/
def patterns (w : Option Word) : List Text :=
  (((w.map Given.toList).getD []).map fun p => p.getD "false".toList).filter fun p => !p.isEmpty

/-- One of the two arguments that decide about numbering. -/
def decidesOrdinal (arg : Text) : Bool := arg == "--ordinal".toList || arg == "--no-ordinal".toList

/-- Reads the arguments of a command. -/
def read (args : List Text) : Arguments :=
  let r := Reading.readFrom false .start args
  { operands := r.operands
    inPlace := r.flag .inPlace
    dryRun := r.flag .dryRun
    ordinal := if args.any decidesOrdinal then some (r.flag .ordinal).isOn else .none
    exclude := patterns (r.word? .exclude)
    config := r.word? .config
    quiet := r.flag .quiet
    verbose := r.flag .verbose
    help := r.flag .help }

end Arguments

end WikiTidy.Settings
