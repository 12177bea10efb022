import WikiTidy.Json.Reader
import WikiTidy.Link.Anchors
import WikiTidy.Site.Notice
import WikiTidy.Tree.Operations

/-!
# The settings file

A settings file holds an object with up to three members that matter. A member that has a value of
another type than it should is passed over with a notice; all other members are passed over
silently.
-/

namespace WikiTidy.Settings

/-- What a settings file says. -/
structure FileSettings where
  exclude : Option (List Text)
  anchors : Option Link.Anchors
  ordinal : Option Bool
deriving DecidableEq, Repr

namespace FileSettings

/-- The patterns to exclude. -/
def excludeOf (value : Json) : Option (List Text) := value.array?.bind (·.mapM Json.string?)

/-- The anchors of sections. -/
def anchorsOf (value : Json) : Option Link.Anchors := do
  let members ← value.object?
  let pairs ← members.mapM fun (name, anchor) => anchor.string?.map fun anchor => (name, anchor)
  return Link.Anchors.ofPairs pairs

/-- A member that may be missing, and the notice if it has the wrong type. -/
def readMember {α : Type} (members : List (Text × Json)) (file : Text) (member : Member)
    (read : Json → Option α) : Option α × List Notice :=
  match Table.get? member.name members with
  | none => (none, [])
  | some value =>
    match read value with
    | some a => (some a, [])
    | none => (none, [.memberIgnored member file])

/-- What the value of a settings file says, and the notices about it. -/
def ofJson (value : Json) (file : Text) : Option FileSettings × List Notice :=
  match value.object? with
  | none => (none, [.settingsNotObject file])
  | some members =>
    let (exclude, n₁) := readMember members file .exclude excludeOf
    let (anchors, n₂) := readMember members file .sectionAnchors anchorsOf
    let (ordinal, n₃) := readMember members file .ordinal Json.bool?
    (some { exclude, anchors, ordinal }, n₁ ++ n₂ ++ n₃)

/-! ## Finding the file -/

/-- The name of the settings file that is looked for. -/
def defaultName : Text := "docnorm.config.json".toList

/-- The name of the package file, which may hold the settings in a member. -/
def packageName : Text := "package.json".toList

/-- The member of the package file that holds the settings. -/
def packageMember : Text := "docnorm".toList

/-- The JSON value in a file. -/
def readJson (t : Tree) (p : Place) : Except Unreadable Json :=
  match t.read p with
  | .error cause => .error (.failure ⟨cause, .readFile⟩)
  | .ok content =>
    match Json.read? (Utf8.decode content) with
    | some value => .ok value
    | none => .error .notJson

/-- The settings in a file of their own. -/
def ofFile (t : Tree) (p : Place) : Option FileSettings × List Notice :=
  match readJson t p with
  | .ok value => ofJson value p.render
  | .error reason => (none, [.settingsUnreadable p reason])

/-- The settings in a package file. -/
def ofPackage (t : Tree) (p : Place) : Option FileSettings × List Notice :=
  match readJson t p with
  | .ok value =>
    match value.member? packageMember with
    | some settings => ofJson settings p.render
    | none => (none, [])
  | .error reason => (none, [.packageUnreadable p reason])

/-- The settings of the working folder: its settings file, or else its package file. -/
def ofFolder (t : Tree) (folder : Place) : Option FileSettings × List Notice :=
  let settings := folder ++ [defaultName]
  let package := folder ++ [packageName]
  if t.hasEntry settings then ofFile t settings
  else if t.hasEntry package then ofPackage t package
  else (none, [])

/-- The settings in the file at a path, which was asked for by name. -/
def ofPath (t : Tree) (folder : Place) (path : Text) : Option FileSettings × List Notice :=
  let p := Place.resolve folder path
  if t.hasEntry p then ofFile t p else (none, [.settingsMissing path])

end FileSettings

end WikiTidy.Settings
