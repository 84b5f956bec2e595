/-! # Outlines

The written form of a structured value: a record with its named fields, a
constructor around one value, a list, a mapping. Everything the library describes
to a person is put together from these four forms.
-/

namespace SnapStore.Outline

/-- Texts joined by a comma and a blank. -/
def commas (items : List String) : String :=
  ", ".intercalate items

/-- A record: its name, then its fields in braces, as in `Point { x: 1, y: 2 }`. -/
def record (name : String) (fields : List (String × String)) : String :=
  name ++ " \x7b " ++ commas (fields.map fun (field, value) => field ++ ": " ++ value) ++ " \x7d"

/-- A constructor around one value, as in `Some(1)`. -/
def variant (name value : String) : String :=
  name ++ "(" ++ value ++ ")"

/-- A value that may be absent. -/
def option : Option String → String
  | none => "None"
  | some value => variant "Some" value

/-- A list in brackets. -/
def list (items : List String) : String :=
  "[" ++ commas items ++ "]"

/-- A tuple in parentheses. -/
def tuple (items : List String) : String :=
  "(" ++ commas items ++ ")"

/-- A mapping in braces, without blanks inside them. -/
def mapping (entries : List (String × String)) : String :=
  "\x7b" ++ commas (entries.map fun (key, value) => key ++ ": " ++ value) ++ "\x7d"

/-- A truth value. -/
def bool (b : Bool) : String :=
  if b then "true" else "false"

end SnapStore.Outline
