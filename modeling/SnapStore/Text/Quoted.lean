import SnapStore.Text.Lowercase
import SnapStore.Text.PrintTable
import SnapStore.Text.Hex

/-! # Quoted texts

A text in quotation marks, as descriptions show it. Quotation marks, backslashes and
the common controls have short escapes, and whatever has no visible form of its own
is shown by its code point.
-/

namespace SnapStore.Quoted

/-- Whether a character is a mark that extends the one before it. -/
def isExtending (c : Char) : Bool :=
  Lowercase.inRanges extending c.toNat

/-- Whether a character has a visible form, the blank included. -/
def isPrinted (c : Char) : Bool :=
  c = ' ' || !Lowercase.inRanges unprinted c.toNat

/-- A character within a quoted text. -/
def escape (c : Char) : String :=
  if c = '\x00' then "\\0"
  else if c = '\t' then "\\t"
  else if c = '\r' then "\\r"
  else if c = '\n' then "\\n"
  else if c = '"' then "\\\""
  else if c = '\\' then "\\\\"
  else if isExtending c || !isPrinted c then "\\u\x7b" ++ Hex.ofNat c.toNat ++ "\x7d"
  else c.toString

/-- A text in quotation marks. -/
def quote (s : String) : String :=
  "\"" ++ String.join (s.toList.map escape) ++ "\""

end SnapStore.Quoted
