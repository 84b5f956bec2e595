import SnapStore.Schema
import SnapStore.Index.Text
import SnapStore.Index.Number
import SnapStore.Index.Flag
import SnapStore.Index.Identifier
import SnapStore.Index.Compound

/-! # People

People are the sample objects: their schema has an index of nearly every sort. The
sample people are numbered, and a person's number determines all there is to know.
-/

namespace SnapStore

/-- A person. -/
structure Person where
  id : Uuid := .nil
  email : String := ""
  name : String := ""
  age : Int64 := 0
  tags : List String := []
  manager : Option Uuid := none
  attrs : List (String × String) := []
  deriving DecidableEq

namespace Person

/-- A person with an identifier, a name and an age. The identifier makes the address
unique. -/
def new (id : Uuid) (name : String) (age : Int64) : Person :=
  { id := id, name := name, age := age
    email := name ++ "." ++ String.ofList id.digits ++ "@example.com" }

/-- A person in words. -/
def describe (p : Person) : String :=
  Outline.record "Person"
    [("id", p.id.text), ("email", Quoted.quote p.email), ("name", Quoted.quote p.name),
      ("age", toString p.age.toInt), ("tags", Outline.list (p.tags.map Quoted.quote)),
      ("manager", Outline.option (p.manager.map Uuid.text)),
      ("attrs", Outline.list (p.attrs.map fun (k, v) =>
        Outline.tuple [Quoted.quote k, Quoted.quote v]))]

/-! ## The schema of people -/

/-- The indexes of a table of people. -/
def indexes : List (IndexSchema Person) :=
  [{ name := primaryName, unique := true
     indexer := .single (IdentifierIndex.field (some ·.id)) },
    { name := "email", unique := true
      indexer := .single (TextIndex.single (some ·.email) true) },
    { name := "name", indexer := .single (TextIndex.single (some ·.name)) },
    { name := "age", indexer := .single (NumberIndex.signed (some ·.age)) },
    { name := "tags", allowMissing := true, indexer := .multi (TextIndex.each (·.tags)) },
    { name := "manager", allowMissing := true
      indexer := .single (IdentifierIndex.field (·.manager)) },
    { name := "has_manager", indexer := .single (FlagIndex.isSet (·.manager.isSome)) },
    { name := "name_age"
      indexer := .single (CompoundIndex.single
        [TextIndex.single (some ·.name), NumberIndex.signed (some ·.age)]) },
    { name := "attrs", allowMissing := true, indexer := .multi (TextIndex.pairs (·.attrs)) }]

/-- A table of people. -/
def table (name : String) : TableSchema Person :=
  { name := name, indexes := Catalog.ofList (indexes.map fun i => (i.name, i)) }

/-- The schema with a table of people under each of the given names. -/
def schema (names : List String) : Schema Person :=
  ⟨Catalog.ofList (names.map fun name => (name, table name))⟩

/-- The name of the main table. -/
def people : String :=
  "people"

/-- The name of the second table. -/
def archive : String :=
  "archive"

/-! ## Sample people -/

/-- The names that sample people take turns with. -/
def names : List String :=
  ["alice", "bob", "carol", "dave", "erin", "frank", "grace", "heidi"]

/-- The tags that sample people take turns with. -/
def allTags : List String :=
  ["admin", "dev", "ops", "sales", "support"]

/-- The identifier in a slot. Slots are counted from 0, identifiers from 1. -/
def slotId (slot : Nat) : Uuid :=
  .ofNat (slot + 1)

/-- The sample person of a number. -/
def sample (i : Nat) : Person :=
  let name := names.getD (i % 8) ""
  { id := slotId i
    email := name ++ toString i ++ "@example.com"
    name := name
    age := .ofNat (20 + i % 50)
    tags := allTags.getD (i % 5) "" ::
      (if i % 3 = 1 then [allTags.getD ((i + 1) % 5) ""] else [])
    manager := if 0 < i && i % 3 = 0 then some (slotId 0) else none
    attrs := [("team", "t" ++ toString (i % 4))] }

/-- The first sample people. -/
def samples (count : Nat) : List Person :=
  (List.range count).map sample

end Person

/-- A write to a table of people: a person to store, or a slot to clear. -/
inductive PersonWrite where
  | insert (person : Person)
  | delete (slot : Nat)
  deriving DecidableEq

namespace PersonWrite

/-- The identifier that a write is about. -/
def id : PersonWrite → Uuid
  | insert person => person.id
  | delete slot => Person.slotId slot

/-- A write in words. -/
def describe : PersonWrite → String
  | insert person => Outline.variant "Insert" person.describe
  | delete slot => Outline.variant "Delete" (toString slot)

end PersonWrite

end SnapStore
