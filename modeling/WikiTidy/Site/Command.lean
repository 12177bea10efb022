import WikiTidy.Settings.Resolve
import WikiTidy.Site.Run

/-!
# The command

A command reads its arguments, works out the settings, runs, and reports: what it was asked for on
the standard output, notices, progress and faults on the standard error. A wrong call ends with the
code 2 and the help text, any other fault with the code 1. A command whose run never ends reports
nothing.
-/

namespace WikiTidy.Site

open Settings

/-- The version of the program. -/
def version : Text := "0.3.0".toList

/-- The help text. -/
def help : Text :=
  "docnorm v".toList ++ version ++ "

Usage:
  docnorm <input_dir> <output_dir> [options]
  docnorm <input_dir> --in-place [options]

Arguments:
  input_dir            Directory of exported wiki pages
  output_dir           Where to write normalized pages (required unless --in-place)

Options:
  --in-place           Rewrite files in place instead of writing to output_dir
  --dry-run            Print files that would change without writing output
  --ordinal            Prefix pages listed in each README index with 01-, 02-, ...
  --exclude, -x        Glob of relative paths to skip (repeatable)
  --config, -c         Path to config file (default: docnorm.config.json)
  --quiet, -q          Suppress warnings
  --verbose, -v        Print progress to stderr
  --help, -h           Show this help text

Examples:
  docnorm ./export ./docs
  docnorm ./docs --in-place --ordinal
  docnorm ./export ./docs --dry-run".toList

/-- What a command leaves behind: the file tree, its exit code, and what it wrote. The progress of a
run goes to the standard error before all that is reported there. -/
structure Report where
  tree : Tree
  code : Nat
  output : Text
  progress : Text
  errors : Text
deriving DecidableEq, Repr

/-- The job that settings describe. -/
def jobOf (s : RunSettings) : Job :=
  { input := s.input, output := s.output, dryRun := s.dryRun.isOn, ordinal := s.ordinal
    exclude := s.exclude, anchors := s.anchors }

/-- What is reported about a fault. -/
def reportFault (fault : Fault) : Text :=
  match fault.kind with
  | .usage => "[error] ".toList ++ fault.message ++ ['\n', '\n'] ++ help ++ ['\n']
  | _ => "[error] ".toList ++ fault.message ++ ['\n']

/-- The exit code of a command that a fault ended. -/
def exitCode (fault : Fault) : Nat :=
  match fault.kind with
  | .usage => 2
  | _ => 1

/-- The notices, unless the command is to be quiet. -/
def reportNotices (quiet : Bool) (notices : List Notice) : Text :=
  if quiet then [] else notices.flatMap Notice.render

/-- What is reported about a run that changed files. -/
def reportDone (s : Summary) (folder output : Place) : Text :=
  let path := Place.relative folder output
  "[INFO] Wrote ".toList ++ Nat.toDigits 10 s.documents.length ++ " documents and copied ".toList
    ++ Nat.toDigits 10 s.copied.length ++ " files to ".toList
    ++ (if path.isEmpty then Path.here else path) ++ ['\n']

/-- Runs a command in a working folder. -/
def command (host : Host) (args : List Text) (t : Tree) (folder : Place) : Option Report :=
  let a := Arguments.read args
  if a.help.isOn then
    some { tree := t, code := 0, output := help ++ ['\n'], progress := [], errors := [] }
  else
    match resolve a t folder with
    | (.error fault, notices) =>
      some { tree := t, code := exitCode fault, output := [], progress := []
             errors := reportNotices a.quiet.isOn notices ++ reportFault fault }
    | (.ok s, notices) =>
      let outcome := (jobOf s).run host t
      let progress := if s.verbose.isOn then outcome.progress.flatMap Progress.render else []
      let reported := reportNotices a.quiet.isOn (notices ++ outcome.notices)
      outcome.result.map fun result =>
        match result with
        | .error fault =>
          { tree := outcome.tree, code := exitCode fault, output := [], progress
            errors := reported ++ reportFault fault }
        | .ok summary =>
          { tree := outcome.tree
            code := 0
            output := if s.dryRun.isOn then summary.changed.flatMap (· ++ ['\n']) else []
            progress
            errors :=
              if !s.dryRun.isOn && s.verbose.isOn then
                reported ++ reportDone summary folder s.output
              else reported }

end WikiTidy.Site
