import SnapStore.Catalog
import SnapStore.Uuid
import SnapStore.Text.JsonText

/-! # Records

A record is an object whose fields are known by name only. Indexes over records read
one field each; a field of another type counts as absent.
-/

namespace SnapStore

/-- The value of a field. -/
inductive Value where
  | text (value : String)
  | bool (value : Bool)
  | int (value : Int64)
  | uint (value : UInt64)
  | uuid (value : Uuid)
  | texts (values : List String)
  | pairs (values : List (String × String))
  deriving DecidableEq

/-- The value in JSON. Numbers, identifiers and pairs are tagged, since JSON has no
types for them. -/
def Value.json : Value → String
  | text s => JsonText.string s
  | bool b => if b then "true" else "false"
  | int n => JsonText.object [("int", JsonText.string (toString n.toInt))]
  | uint n => JsonText.object [("uint", JsonText.string (toString n.toNat))]
  | uuid u => JsonText.object [("uuid", JsonText.string u.text)]
  | texts ss => JsonText.array (ss.map JsonText.string)
  | pairs ps =>
    JsonText.object [("map",
      JsonText.array (ps.map fun (k, v) => JsonText.array [JsonText.string k, JsonText.string v]))]

/-- An object with named fields. -/
structure Record where
  fields : Catalog String Value
  deriving DecidableEq

namespace Record

/-- The value of a field. -/
def get? (r : Record) (name : String) : Option Value :=
  r.fields.find? name

/-- The text in a field. -/
def text? (name : String) (r : Record) : Option String :=
  match r.get? name with
  | some (.text s) => some s
  | _ => none

/-- The truth value in a field. -/
def bool? (name : String) (r : Record) : Option Bool :=
  match r.get? name with
  | some (.bool b) => some b
  | _ => none

/-- The signed number in a field. -/
def int? (name : String) (r : Record) : Option Int64 :=
  match r.get? name with
  | some (.int n) => some n
  | _ => none

/-- The unsigned number in a field. -/
def uint? (name : String) (r : Record) : Option UInt64 :=
  match r.get? name with
  | some (.uint n) => some n
  | _ => none

/-- The identifier in a field. -/
def uuid? (name : String) (r : Record) : Option Uuid :=
  match r.get? name with
  | some (.uuid u) => some u
  | _ => none

/-- The texts in a field. -/
def texts (name : String) (r : Record) : List String :=
  match r.get? name with
  | some (.texts ss) => ss
  | _ => []

/-- The pairs in a field. -/
def pairs (name : String) (r : Record) : List (String × String) :=
  match r.get? name with
  | some (.pairs ps) => ps
  | _ => []

/-- Whether a field is there, of whatever type. -/
def has (name : String) (r : Record) : Bool :=
  (r.get? name).isSome

/-- Whether the number in a field reaches `trueFrom`. A number below `errorBelow`, and a
field without a signed number, are refused. -/
def reaches (name : String) (errorBelow trueFrom : Int64) (r : Record) : Except String Bool :=
  match r.int? name with
  | some n => if n < errorBelow then .error (name ++ " out of range") else .ok (trueFrom ≤ n)
  | none => .error (name ++ " is not an int")

/-- A record in words: its fields as JSON. -/
def describe (r : Record) : String :=
  JsonText.object (r.fields.map fun (name, value) => (name, value.json))

end Record

end SnapStore
