import WikiTidy.Tree.Failure

/-!
# Notices and faults

A **notice** reports something that was passed over; the run goes on. A **fault** ends the run. Both
are values that say what happened; `message` puts them into words.
-/

namespace WikiTidy

open Text

/-! ## Notices -/

/-- How much a notice matters. -/
inductive Level where
  | info
  | warn
deriving DecidableEq, Repr

/-- The name of a level. -/
def Level.name : Level → Text
  | info => "info".toList
  | warn => "warn".toList

/-- The part of the program that gives a notice. -/
inductive Topic where
  | settings
  | discovery
deriving DecidableEq, Repr

/-- The name of a topic. -/
def Topic.name : Topic → Text
  | settings => "config".toList
  | discovery => "file-discovery".toList

/-- A member of the settings file. -/
inductive Member where
  | exclude
  | sectionAnchors
  | ordinal
deriving DecidableEq, Repr

/-- The name of a member. -/
def Member.name : Member → Text
  | exclude => "exclude".toList
  | sectionAnchors => "sectionAnchors".toList
  | ordinal => "ordinal".toList

/-- What the value of a member should be. -/
def Member.expected : Member → Text
  | exclude => "an array of glob strings".toList
  | sectionAnchors => "an object of section name → anchor strings".toList
  | ordinal => "a boolean".toList

/-- Why a settings file cannot be used. -/
inductive Unreadable where
  | failure (failure : Failure)
  | notJson
deriving DecidableEq, Repr

/-- The reason in words. Where a text stops being JSON is not told. -/
def Unreadable.message : Unreadable → Text
  | failure f => f.message
  | notJson => "<json error>".toList

/-- What was passed over. -/
inductive Notice where
  | outputIgnored (output : Text)
  | settingsMissing (path : Text)
  | settingsUnreadable (place : Place) (reason : Unreadable)
  | packageUnreadable (place : Place) (reason : Unreadable)
  | settingsNotObject (file : Text)
  | memberIgnored (member : Member) (file : Text)
  | linkBroken (link : Place) (failure : Failure)
  | linkOutside (link : Place) (path : Text)
  | linkedFolder (link : Place) (path : Text)
deriving DecidableEq, Repr

namespace Notice

/-- How much the notice matters. -/
def level : Notice → Level
  | packageUnreadable _ _ | linkOutside _ _ | linkedFolder _ _ => .info
  | _ => .warn

/-- Who gives the notice. -/
def topic : Notice → Topic
  | linkBroken _ _ | linkOutside _ _ | linkedFolder _ _ => .discovery
  | _ => .settings

/-- The notice in words. -/
def message : Notice → Text
  | outputIgnored output => "--in-place is set; ignoring output_dir ".toList ++ output
  | settingsMissing path => "Config file not found: ".toList ++ path
  | settingsUnreadable place reason =>
    "Failed to parse config file ".toList ++ place.render ++ ": ".toList ++ reason.message
  | packageUnreadable _ reason => "Skipping unparsable package.json: ".toList ++ reason.message
  | settingsNotObject _ => "Config must be a JSON object".toList
  | memberIgnored member _ =>
    "Ignoring \"".toList ++ member.name ++ "\": expected ".toList ++ member.expected
  | linkBroken _ failure => "Cannot resolve symlink: ".toList ++ failure.message
  | linkOutside _ path =>
    "Symlink ".toList ++ path ++ " points outside the input directory — skipped".toList
  | linkedFolder _ path => "Symlinked directory ".toList ++ path ++ " not followed".toList

/-- The file that the notice is about, where the message does not name it. -/
def file? : Notice → Option Text
  | packageUnreadable place _ => some place.render
  | settingsNotObject file | memberIgnored _ file => some file
  | linkBroken link _ | linkOutside link _ | linkedFolder link _ => some link.render
  | _ => none

/-- The notice as one line of a report. -/
def render (n : Notice) : Text :=
  let place := match n.file? with
    | some file => if file.isEmpty then [] else " (".toList ++ file ++ [')']
    | none => []
  '[' :: n.level.name ++ "] ".toList ++ n.topic.name ++ ": ".toList ++ n.message ++ place ++ ['\n']

end Notice

/-! ## Faults -/

/-- What ends a run. -/
inductive Fault where
  | noInput
  | noOutput
  | folderUnreadable (folder : Place) (failure : Failure)
  | fileUnreadable (file : Place) (failure : Failure)
  | notCopied (source : Place) (failure : Failure)
  | notWritten (target : Place) (failure : Failure)
  | notRemoved (file : Place) (failure : Failure)
  | emptyPattern
  | severalSettings
deriving DecidableEq, Repr

/-- The kinds of faults: a wrong call, a failure of the file system, a value of the wrong type. -/
inductive FaultKind where
  | usage
  | io
  | type
deriving DecidableEq, Repr

namespace Fault

/-- The kind of a fault. -/
def kind : Fault → FaultKind
  | noInput | noOutput => .usage
  | emptyPattern | severalSettings => .type
  | _ => .io

/-- What could not be done, where, and why. -/
def describe (what : Text) (place : Place) (failure : Failure) : Text :=
  what ++ ' ' :: place.render ++ ": ".toList ++ failure.message

/-- The fault in words. -/
def message : Fault → Text
  | noInput => "input_dir is required".toList
  | noOutput => "output_dir is required unless --in-place is set".toList
  | folderUnreadable _ failure => "Cannot read directory: ".toList ++ failure.message
  | fileUnreadable p failure => describe "Cannot read file".toList p failure
  | notCopied p failure => describe "Cannot copy file".toList p failure
  | notWritten p failure => describe "Cannot write file".toList p failure
  | notRemoved p failure => describe "Cannot remove renamed file".toList p failure
  | emptyPattern => "Expected pattern to be a non-empty string".toList
  | severalSettings =>
    "The \"paths[1]\" argument must be of type string. Received an instance of Array".toList

end Fault

end WikiTidy
