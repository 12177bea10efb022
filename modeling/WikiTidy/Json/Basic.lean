import WikiTidy.Table
import WikiTidy.Text.Basic

/-!
# JSON values

Numbers keep the text they are written with; the members of an object keep the order in which their
names first stand, and of several members with one name the last value counts.
-/

namespace WikiTidy

/-- A JSON value. -/
inductive Json where
  | null
  | bool (b : Bool)
  | number (text : Text)
  | string (text : Text)
  | array (items : List Json)
  | object (members : List (Text × Json))

namespace Json

instance : Inhabited Json := ⟨null⟩

/-- The value of a member of an object. -/
def member? (name : Text) : Json → Option Json
  | object members => Table.get? name members
  | _ => none

/-- The text of a string. -/
def string? : Json → Option Text
  | string s => some s
  | _ => none

/-- The value of a truth value. -/
def bool? : Json → Option Bool
  | bool b => some b
  | _ => none

/-- The items of an array. -/
def array? : Json → Option (List Json)
  | array items => some items
  | _ => none

/-- The members of an object. -/
def object? : Json → Option (List (Text × Json))
  | object members => some members
  | _ => none

end Json

end WikiTidy
