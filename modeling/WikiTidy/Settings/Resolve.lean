import WikiTidy.Settings.Arguments
import WikiTidy.Settings.File

/-!
# The settings of a run

Arguments go before the settings file, and the settings file before the defaults: for numbering the
arguments decide if they say anything, patterns to exclude are those of the file and then those of
the arguments, and the anchors of the file are put on top of the standard ones.
-/

namespace WikiTidy.Settings

/-- What a run is to do. -/
structure RunSettings where
  input : Place
  output : Place
  inPlace : Flag
  dryRun : Flag
  ordinal : Bool
  exclude : List Text
  anchors : Link.Anchors
  verbose : Flag
  quiet : Flag
deriving DecidableEq, Repr

/-- An operand; an empty one counts as missing. -/
def operand? (a : Arguments) (i : Nat) : Option Text :=
  (a.operands[i]?).filter fun s => !s.isEmpty

/-- The settings that the arguments lead to: those of the file they name, or else those of the
working folder. -/
def fileSettings (t : Tree) (folder : Place) :
    Option Word → Except Fault (Option FileSettings × List Notice)
  | none | some (.once none) | some (.once (some [])) => .ok (FileSettings.ofFolder t folder)
  | some (.once (some path)) => .ok (FileSettings.ofPath t folder path)
  | some (.several _) => .error .severalSettings

/-- The settings of a run, or the fault of its arguments, with the notices in order. -/
def resolve (a : Arguments) (t : Tree) (folder : Place) : Except Fault RunSettings × List Notice :=
  match operand? a 0, operand? a 1 with
  | none, _ => (.error .noInput, [])
  | some input, output =>
    if !a.inPlace.isOn && output.isNone then (.error .noOutput, [])
    else
      let ignored := match output with
        | some path => if a.inPlace.isOn then [Notice.outputIgnored path] else []
        | none => []
      match fileSettings t folder a.config with
      | .error fault => (.error fault, ignored)
      | .ok (file, notices) =>
        let input := Place.resolve folder input
        let output := match output with
          | some path => if a.inPlace.isOn then input else Place.resolve folder path
          | none => input
        (.ok
          { input, output
            inPlace := a.inPlace
            dryRun := a.dryRun
            ordinal := (a.ordinal <|> file.bind FileSettings.ordinal).getD false
            exclude := (file.bind FileSettings.exclude).getD [] ++ a.exclude
            anchors := Link.Anchors.standard.overlay ((file.bind FileSettings.anchors).getD [])
            verbose := a.verbose
            quiet := a.quiet },
          ignored ++ notices)

end WikiTidy.Settings
