import SnapStore.Uuid
import SnapStore.Text.Quoted
import SnapStore.Text.Outline

/-! # Query arguments

A query names an index and gives it arguments: plain values, out of which the index
derives the key to look for.
-/

namespace SnapStore

/-- A value given to a query. -/
inductive Arg where
  | text (value : String)
  | int (value : Int64)
  | uint (value : UInt64)
  | bool (value : Bool)
  | bytes (value : List UInt8)
  | uuid (value : Uuid)
  deriving DecidableEq

namespace Arg

/-- The kind of value, in a word. -/
def kind : Arg → String
  | text _ => "string"
  | int _ => "int"
  | uint _ => "uint"
  | bool _ => "bool"
  | bytes _ => "bytes"
  | uuid _ => "uuid"

/-- An argument in words. -/
def describe : Arg → String
  | text s => Outline.variant "Str" (Quoted.quote s)
  | int n => Outline.variant "Int" (toString n.toInt)
  | uint n => Outline.variant "Uint" (toString n.toNat)
  | bool b => Outline.variant "Bool" (Outline.bool b)
  | bytes bs => Outline.variant "Bytes" (Outline.list (bs.map fun b => toString b.toNat))
  | uuid u => Outline.variant "Uuid" u.text

end Arg

end SnapStore
