import WikiTidy.Table
import WikiTidy.Text.Order

/-!
# Section anchors

A table of section anchors names, for a section of a readme, the anchor it can be reached by. Its
entries are tried one after the other, so their order counts: names that are the decimal numbers of
list positions come first, by value, and the other names follow in the order they were put.
-/

namespace WikiTidy.Link

open Text

/-- Section names with their anchors. -/
abbrev Anchors := Table Text Text

namespace Anchors

/-- The value of a run of decimal digits. -/
def decimal (digits : Text) : Nat := digits.foldl (fun n c => 10 * n + (c.toNat - '0'.toNat)) 0

/-- The list position that a name stands for: a decimal number without leading zeros, below
2³² - 1. -/
def position? (name : Text) : Option Nat :=
  if name.all isDigit && !name.isEmpty && (name == ['0'] || name.head? != some '0')
      && decimal name < 4294967295 then some (decimal name)
  else none

/-- The entries in the order in which they are tried. -/
def inOrder (entries : Anchors) : Anchors :=
  let numbered := entries.filterMap fun e => (position? e.1).map fun n => (n, e)
  (sortBy (fun a b => a.1 < b.1) numbered).map Prod.snd
    ++ entries.filter fun e => (position? e.1).isNone

/-- The table of a list of pairs. -/
def ofPairs (pairs : List (Text × Text)) : Anchors := inOrder (Table.ofPairs pairs)

/-- One table on top of another. -/
def overlay (base more : Anchors) : Anchors := inOrder (base.putAll more)

/-- The sections that every readme has. -/
def standard : Anchors :=
  [ ("Networking Section", "networking-configuration"),
    ("Virtual Environment Section", "virtual-environment-setup"),
    ("Module Import Section", "module-import-issues"),
    ("WSL.exe Section", "wslexe-issues"),
    ("Path Translation Section", "path-translation-issues"),
    ("Performance Section", "performance-optimization"),
    ("Line Ending Section", "line-ending-issues"),
    ("Distribution Section", "distribution-selection") ].map
    fun (name, anchor) => (name.toList, anchor.toList)

end Anchors

end WikiTidy.Link
