import WikiTidy.Tree.Operations

/-!
# The file system

A command runs on a `Tree`. Here the parts of the file system that it asks about are read into one,
and what it changed in the tree is written back. Links are read as they end: the target of a link is
the place, free of links, of what it leads to.
-/

namespace WikiTidy.Disk

/-- The entry of the file system at a place. -/
def entryAt (p : Place) : IO.FS.DirEntry :=
  { root := String.ofList (Place.render p.dropLast)
    fileName := String.ofList (p.getLast?.getD []) }

/-- Stands at the end of a name that no file can have. -/
def mark : Char := '\x00'

/-- Following the link at a place never comes to an end. -/
def isLoop (p : Place) : IO Bool := do
  try
    discard (entryAt p).path.metadata
    return false
  catch
    | .invalidArgument .. => return true
    | _ => return false

/-- Where the link at a place leads to. One that goes round in a loop leads to itself, and one that
leads to nothing to a name beside it that is free, so that a file can be written through it. -/
def target (p : Place) : IO Text := do
  try
    return (← IO.FS.realPath (entryAt p).path).toString.toList
  catch _ =>
    return if ← isLoop p then p.render else p.render ++ [mark]

/-- What is at a place below the root. What cannot be looked at, and what is neither a folder, a
file nor a link, counts as nothing. -/
def look (p : Place) : IO (Option Entry) := do
  let kind? ← try pure (some (← (entryAt p).path.symlinkMetadata).type) catch _ => pure none
  match kind? with
  | some .dir => return some .folder
  | some .file => return some (.file (← IO.FS.readBinFile (entryAt p).path).data.toList)
  | some .symlink => return some (.link (← target p))
  | _ => return none

/-- Adds what is at a place to a tree. -/
def learnEntry (t : Tree) (p : Place) : IO Tree := do
  match ← look p with
  | some e => return t.put p e
  | none => return t

/-- Adds to a tree what is on the way that names lead from a folder, through links, and at its
end. -/
def learnFrom (t : Tree) (here : Place) : List Text → IO Tree
  | [] => return t
  | name :: names => do
    let p := here ++ [name]
    let t ← learnEntry t p
    match t.get? p with
    | some .folder => learnFrom t p names
    | some (.link target) =>
      let real := Place.descend [] target
      let onTheWay := (List.range real.length).map fun n => real.take (n + 1)
      learnFrom (← onTheWay.foldlM learnEntry t) real names
    | _ => return t

/-- Adds to a tree what is on the way to a place and there. -/
def learn (t : Tree) (p : Place) : IO Tree := learnFrom t [] p

/-- Adds to a tree all that is below a folder, and what the links there lead to. -/
partial def learnBelow (t : Tree) (folder : Place) : IO Tree := do
  let mut t := t
  for e in ← (entryAt folder).path.readDir do
    let p := folder ++ [e.fileName.toList]
    t ← learn t p
    if t.isFolder p then t ← learnBelow t p
  return t

/-- The places at which two trees differ, first those where the second one has something. -/
def changedPlaces (before after : Tree) : List Place :=
  (after.entries.keys.filter fun p => before.get? p != after.get? p)
    ++ before.entries.keys.filter fun p => (after.get? p).isNone

/-- Makes a place what it is in a tree; a link stays as it is. -/
def restore (t : Tree) (p : Place) : IO Unit := do
  let path := (entryAt (p.map (·.filter (· != mark)))).path
  match t.get? p with
  | some .folder => IO.FS.createDir path
  | some (.file content) => IO.FS.writeBinFile path ⟨content.toArray⟩
  | some (.link _) => return
  | none => IO.FS.removeFile path

/-- Makes the file system differ from what it was as one tree differs from another. -/
def commit (before after : Tree) : IO Unit :=
  (changedPlaces before after).forM (restore after)

end WikiTidy.Disk
