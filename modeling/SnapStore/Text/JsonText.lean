import SnapStore.Text.Hex

/-! # Compact JSON

The JSON text of strings, arrays and objects, without blanks. Only quotation marks,
backslashes and controls are escaped.
-/

namespace SnapStore.JsonText

/-- A character within a JSON string. -/
def escape (c : Char) : String :=
  if c = '"' then "\\\""
  else if c = '\\' then "\\\\"
  else if c = '\n' then "\\n"
  else if c = '\r' then "\\r"
  else if c = '\t' then "\\t"
  else if c = '\x08' then "\\b"
  else if c = '\x0c' then "\\f"
  else if c.toNat < 0x20 then "\\u00" ++ String.ofList (Hex.ofByte c.toNat.toUInt8)
  else c.toString

/-- A string. -/
def string (s : String) : String :=
  "\"" ++ String.join (s.toList.map escape) ++ "\""

/-- An array of values that are already written. -/
def array (items : List String) : String :=
  "[" ++ ",".intercalate items ++ "]"

/-- An object of values that are already written. -/
def object (members : List (String × String)) : String :=
  "\x7b" ++ ",".intercalate (members.map fun (name, value) => string name ++ ":" ++ value) ++
    "\x7d"

end SnapStore.JsonText
