import WikiTidy.Disk
import WikiTidy.Glob.Pattern
import WikiTidy.Site.Command

/-!
# The command line

Reads what a command may look at into a tree, runs the command on it, writes back what it changed,
and prints its report. Patterns are matched as globs. The command runs on a disk that takes all its
steps; the changes are made afterwards, so a fault of the real one ends the program.
-/

namespace WikiTidy.Main

open Settings Site

/-- The paths that the arguments name, and those of the settings of the working folder. -/
def namedPaths (a : Arguments) : List Text :=
  let config := match a.config with
    | some (.once (some path)) => [path]
    | _ => []
  [FileSettings.defaultName, FileSettings.packageName] ++ config ++ a.operands

/-- The part of the file system that a command reads. -/
def read (a : Arguments) (folder : Place) : IO Tree := do
  let t ← ((namedPaths a).map (Place.resolve folder)).foldlM Disk.learn Tree.empty
  if a.help.isOn then return t
  match (resolve a t folder).1 with
  | .error _ => return t
  | .ok s =>
    match t.realFolder s.input with
    | .error _ => return t
    | .ok input => Disk.learnBelow t input

/-- Patterns are globs, and every step is done. -/
def host : Host :=
  { accepts := fun pattern path => (Glob.Pattern.ofText pattern).accepts path
    disk := fun _ => .done }

/-- Runs a command on a tree, and again if there is more at the places it changed than the tree
said. A command that never ends is run for ever. -/
partial def run (args : List Text) (folder : Place) (t : Tree) : IO (Tree × Report) := do
  match command host args t folder with
  | none => run args folder t
  | some report =>
    let known ← (Disk.changedPlaces t report.tree).foldlM Disk.learn t
    if known = t then return (t, report) else run args folder known

end WikiTidy.Main

/-- Normalizes a folder of wiki pages. -/
def main (args : List String) : IO UInt32 := do
  try
    let args := args.map String.toList
    let folder := WikiTidy.Place.descend [] (← IO.currentDir).toString.toList
    let t ← WikiTidy.Main.read (WikiTidy.Settings.Arguments.read args) folder
    let (before, report) ← WikiTidy.Main.run args folder t
    WikiTidy.Disk.commit before report.tree
    IO.print (String.ofList report.output)
    IO.eprint (String.ofList (report.progress ++ report.errors))
    return UInt32.ofNat report.code
  catch e =>
    IO.eprintln ("[error] " ++ toString e)
    return 1
