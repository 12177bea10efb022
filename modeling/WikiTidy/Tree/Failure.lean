import WikiTidy.Tree.Links

/-!
# Failures of the file system

What is reported when an operation on the file system fails: a cause with its short name, and the
operation with the places it works on.
-/

namespace WikiTidy

open Text

/-- The operation of the file system that failed. -/
inductive Operation where
  | list (place : Place)
  | status (place : Place)
  | look (place : Place)
  | openFile (place : Place)
  | readFile
  | writeFile
  | copyFile (source target : Place)
  | makeFolder (place : Place)
  | remove (place : Place)
deriving DecidableEq, Repr

/-- A failure of the file system. -/
structure Failure where
  cause : Cause
  operation : Operation
deriving DecidableEq, Repr

namespace Cause

/-- The short name of a cause. -/
def code : Cause → Text
  | missing => "ENOENT".toList
  | notFolder => "ENOTDIR".toList
  | isFolder => "EISDIR".toList
  | taken => "EEXIST".toList
  | loop => "ELOOP".toList
  | device code _ => code

/-- A cause in words. -/
def description : Cause → Text
  | missing => "no such file or directory".toList
  | notFolder => "not a directory".toList
  | isFolder => "illegal operation on a directory".toList
  | taken => "file already exists".toList
  | loop => "too many symbolic links encountered".toList
  | device _ description => description

end Cause

/-- A place between quotes. -/
def quotePlace (p : Place) : Text := '\'' :: p.render ++ ['\'']

namespace Operation

/-- An operation with the places it works on. -/
def describe : Operation → Text
  | list p => "scandir ".toList ++ quotePlace p
  | status p => "stat ".toList ++ quotePlace p
  | look p => "lstat ".toList ++ quotePlace p
  | openFile p => "open ".toList ++ quotePlace p
  | readFile => "read".toList
  | writeFile => "write".toList
  | copyFile a b => "copyfile ".toList ++ quotePlace a ++ " -> ".toList ++ quotePlace b
  | makeFolder p => "mkdir ".toList ++ quotePlace p
  | remove p => "rm ".toList ++ quotePlace p

end Operation

/-- A failure in words. -/
def Failure.message (f : Failure) : Text :=
  f.cause.code ++ ": ".toList ++ f.cause.description ++ ", ".toList ++ f.operation.describe

end WikiTidy
