import WikiTidy.Numbering.Renames
import WikiTidy.Page.Normalize
import WikiTidy.Site.Discovery
import WikiTidy.Tree.Operations

/-!
# Normalizing a site

A run reads all pages of the input folder and works out their new texts and names before it changes
anything. What is to be changed is a **plan**, a list of steps: into another folder first all other
files are copied and then all pages are written; in place only the pages that changed are written,
each at its new name before its old name is removed. A run stops at the first step that fails, and
puts nothing back.

A step can fail because the tree does not allow it, and for reasons that only the disk knows: it may
be full, or take no more of a file. Then a step that has begun is left half done. The disk is a part
of the `Host`, which says for each step what becomes of it.
-/

namespace WikiTidy.Site

/-- What a run is asked to do. -/
structure Job where
  input : Place
  output : Place
  /-- Changes nothing. -/
  dryRun : Bool
  /-- Numbers the pages that readmes list. -/
  ordinal : Bool
  exclude : List Text
  anchors : Link.Anchors
deriving DecidableEq, Repr

namespace Job

/-- The pages are changed where they are. -/
def inPlace (j : Job) : Bool := j.input == j.output

/-! ## Reading -/

/-- The content of the page at a path. -/
def readPage (t : Tree) (input : Place) (path : Text) : Except Fault Text :=
  let p := Place.descend input path
  match t.read p with
  | .ok content => .ok (Utf8.decode content)
  | .error cause => .error (.fileUnreadable p ⟨cause, .openFile p⟩)

/-- The page at a path, normalized. -/
def document (j : Job) (t : Tree) (path : Text) : Except Fault Document :=
  (readPage t j.input path).map fun text =>
    { path, outputPath := path, content := text, updated := Page.normalize j.anchors text }

/-- The pages among files, normalized and, if asked for, numbered. -/
def documents (j : Job) (t : Tree) (files : List Text) : Except Fault (List Document) :=
  ((files.filter Path.isPage).mapM (j.document t)).map fun documents =>
    if j.ordinal then Numbering.number documents else documents

/-! ## The plan -/

end Job

/-- One change of the file tree. -/
inductive Step where
  | copy (source target : Place)
  | write (target : Place) (content : Text)
  | remove (place : Place)
deriving DecidableEq, Repr

namespace Job

/-- The steps for a page. -/
def writing (j : Job) (d : Document) : List Step :=
  if j.inPlace && !d.isChanged then []
  else
    .write (Place.descend j.output d.outputPath) d.updated ::
      if j.inPlace && d.outputPath != d.path then [.remove (Place.descend j.input d.path)] else []

/-- The steps for a file that is no page. -/
def copying (j : Job) (path : Text) : Step :=
  .copy (Place.descend j.input path) (Place.descend j.output path)

/-- All steps of a run. -/
def plan (j : Job) (copied : List Text) (documents : List Document) : List Step :=
  if j.dryRun then []
  else (if j.inPlace then [] else copied.map j.copying) ++ documents.flatMap j.writing

end Job

/-! ## The host -/

/-- What the disk makes of a step. -/
inductive Fate where
  | done
  /-- Only the first `made` names on the way to the folder of the place are made. -/
  | noFolder (made : Nat) (cause : Cause)
  /-- The file at the place is not touched. -/
  | notBegun (cause : Cause)
  /-- The file at the place was opened, and this is left of it. -/
  | cutShort (left : Option Utf8.Bytes) (cause : Cause)
deriving DecidableEq, Repr

/-- What a run relies on. -/
structure Host where
  /-- A pattern accepts a path. -/
  accepts : Text → Text → Bool
  /-- What the disk makes of each step, counted from the first one on. -/
  disk : Nat → Fate

namespace Step

open Utf8 (Bytes)

/-- Makes the folder of a place. The tree that is given back with a failure is the one it left. -/
def makeFolderOf (fate : Fate) (t : Tree) (p : Place) : Tree × Option Failure :=
  match fate with
  | .noFolder made cause =>
    ((t.makeFolders (p.dropLast.take made)).toOption.getD t, some ⟨cause, .makeFolder p.dropLast⟩)
  | _ =>
    match t.makeFolders p.dropLast with
    | .error cause => (t, some ⟨cause, .makeFolder p.dropLast⟩)
    | .ok t => (t, none)

/-- Puts a file into a folder that is there. -/
def putFile (fate : Fate) (t : Tree) (p : Place) (content : Bytes) (opening writing : Operation) :
    Tree × Option Failure :=
  match fate with
  | .notBegun cause => (t, some ⟨cause, opening⟩)
  | .cutShort left cause =>
    match t.leave p left with
    | .error cause => (t, some ⟨cause, opening⟩)
    | .ok t => (t, some ⟨cause, writing⟩)
  | _ =>
    match t.write p content with
    | .error cause => (t, some ⟨cause, opening⟩)
    | .ok t => (t, none)

/-- Makes the folder of a place and puts a file there; `content` is read in between. -/
def deliver (fate : Fate) (t : Tree) (p : Place) (content : Tree → Except Cause Bytes)
    (opening writing : Operation) : Tree × Option Failure :=
  match makeFolderOf fate t p with
  | (t, some failure) => (t, some failure)
  | (t, none) =>
    match content t with
    | .error cause => (t, some ⟨cause, opening⟩)
    | .ok content => putFile fate t p content opening writing

/-- Takes a file away. -/
def takeAway (fate : Fate) (t : Tree) (p : Place) : Tree × Option Failure :=
  match fate with
  | .done =>
    match t.remove p with
    | .error cause => (t, some ⟨cause, .remove p⟩)
    | .ok t => (t, none)
  | .noFolder _ cause | .notBegun cause | .cutShort _ cause => (t, some ⟨cause, .remove p⟩)

/-- Does one step; the tree that is given back with a fault is the one it left. -/
def perform (fate : Fate) (t : Tree) : Step → Tree × Option Fault
  | copy source target =>
    let copying := .copyFile source target
    (deliver fate t target (·.read source) copying copying).map id (·.map (.notCopied source))
  | write target content =>
    (deliver fate t target (fun _ => .ok (Utf8.encode content)) (.openFile target) .writeFile).map id
      (·.map (.notWritten target))
  | remove place => (takeAway fate t place).map id (·.map (.notRemoved place))

/-- Does steps until one fails. -/
def performAll (disk : Nat → Fate) (t : Tree) : List Step → Tree × Option Fault
  | [] => (t, none)
  | s :: steps =>
    match perform (disk 0) t s with
    | (t, none) => performAll (fun n => disk (n + 1)) t steps
    | (t, some fault) => (t, some fault)

end Step

/-! ## The run -/

/-- What a run did, or, without its steps, would do. -/
structure Summary where
  documents : List Document
  /-- The files that are no pages. -/
  copied : List Text
deriving DecidableEq, Repr

/-- The new paths of the pages whose text or path changed. -/
def Summary.changed (s : Summary) : List Text :=
  (s.documents.filter Document.isChanged).map Document.outputPath

/-- How far a run has come. -/
inductive Progress where
  | discovered (files : Nat) (folder : Place)
  | compared (changed documents : Nat)
deriving DecidableEq, Repr

/-- The progress as one line of a log. -/
def Progress.render : Progress → Text
  | discovered files folder =>
    "[INFO] Discovered ".toList ++ Nat.toDigits 10 files ++ " files under ".toList
      ++ folder.render ++ ['\n']
  | compared changed documents =>
    "[INFO] ".toList ++ Nat.toDigits 10 changed ++ " of ".toList ++ Nat.toDigits 10 documents
      ++ " documents changed\n".toList

/-- The outcome of a run: the tree it left, what it did or the fault that ended it, the notices it
gave, and its progress. A run that never ends has no result. -/
structure Outcome where
  tree : Tree
  result : Option (Except Fault Summary)
  notices : List Notice
  progress : List Progress

/-- The fault that ended a run. -/
def Outcome.fault? (o : Outcome) : Option Fault :=
  match o.result with
  | some (.error fault) => some fault
  | _ => none

/-- Normalizes a site. -/
def Job.run (j : Job) (host : Host) (t : Tree) : Outcome :=
  match discover host.accepts t j.input j.exclude with
  | none => { tree := t, result := none, notices := [], progress := [] }
  | some (.error fault, notices) =>
    { tree := t, result := some (.error fault), notices, progress := [] }
  | some (.ok files, notices) =>
    let discovered := Progress.discovered files.length j.input
    match j.documents t files with
    | .error fault => { tree := t, result := some (.error fault), notices, progress := [discovered] }
    | .ok documents =>
      let summary : Summary := { documents, copied := files.filter fun path => !Path.isPage path }
      let compared := Progress.compared summary.changed.length documents.length
      let (tree, fault) := Step.performAll host.disk t (j.plan summary.copied documents)
      { tree
        result := match fault with
          | none => some (.ok summary)
          | some fault => some (.error fault)
        notices
        progress := [discovered, compared] }

end WikiTidy.Site
