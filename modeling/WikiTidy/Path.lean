import WikiTidy.Text.Basic

/-!
# Paths

A path is a text whose names are separated by slashes. `clean` writes it without empty names,
without `.` and with every `..` taken back where a name stands before it; a path that leads nowhere
is `.`. `folder` and `leaf` take a path apart at its last slash, not counting slashes at its end.
-/

namespace WikiTidy.Path

open Text

/-- The name that stands for the folder itself. -/
def here : Text := ['.']

/-- The name that stands for the folder above. -/
def above : Text := ['.', '.']

/-- The path starts at the root. -/
def isRooted (path : Text) : Bool := path.head? == some '/'

/-- One name of a path, put on the names before it, last name first. Above the root is the root. -/
def push (rooted : Bool) (names : List Text) (name : Text) : List Text :=
  if name = [] ∨ name = here then names
  else if name = above then
    match names with
    | [] => if rooted then [] else [above]
    | last :: rest => if last = above then above :: names else rest
  else name :: names

/-- The names of a path with `.` and `..` worked out. -/
def reduce (rooted : Bool) (names : List Text) : List Text :=
  (names.foldl (push rooted) []).reverse

/-- The path in its shortest form; a slash at the end is kept. -/
def clean (path : Text) : Text :=
  let names := reduce (isRooted path) (split '/' path)
  let root := if isRooted path then ['/'] else []
  let close := if path.getLast? = some '/' then ['/'] else []
  match names with
  | [] => if isRooted path then root else here ++ close
  | _ => root ++ Text.join ['/'] names ++ close

/-- One path taken from the folder that another one leads to. -/
def join (folder path : Text) : Text :=
  clean (Text.join ['/'] ([folder, path].filter fun part => !part.isEmpty))

/-- The folder that holds what the path leads to. -/
def folder (path : Text) : Text :=
  match path with
  | [] => here
  | first :: rest =>
    match (rest.reverse.dropWhile (· == '/')).dropWhile (· != '/') with
    | [] => if first = '/' then ['/'] else here
    | _ :: before => if first = '/' ∧ before = [] then ['/', '/'] else first :: before.reverse

/-- The last name of a path. -/
def leaf (path : Text) : Text :=
  ((path.reverse.dropWhile (· == '/')).takeWhile (· != '/')).reverse

/-- The number of names of a path, empty ones counted. -/
def depth (path : Text) : Nat := (split '/' path).length

/-- What a page's name ends with. -/
def pageExtension : Text := ".md".toList

/-- The path leads to a page, whatever the case of its extension. -/
def isPage (path : Text) : Bool := endsWith pageExtension (lower path)

end WikiTidy.Path
