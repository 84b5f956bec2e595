import SnapStore.Schema
import SnapStore.Index.Identifier
import SnapStore.Index.Text

/-! # Ships

Ships are small sample objects, with an index that folds case and one over identifiers: a ship has
a code, which is its identity, and a name, and its owner may be known by an identifier.
-/

namespace SnapStore

/-- A ship. -/
structure Ship where
  code : String
  name : String := ""
  owner : Option Uuid := none
  deriving DecidableEq

namespace Ship

/-- The primary index. -/
def byCode : IndexSchema Ship :=
  { name := primaryName, unique := true, indexer := .single (TextIndex.single (some ·.code)) }

/-- The index over names, whatever their case. A ship need not have one. -/
def byName : IndexSchema Ship :=
  { name := "name", allowMissing := true
    indexer := .single (TextIndex.single (some ·.name) true) }

/-- The index over owners. A ship need not have one. -/
def byOwner : IndexSchema Ship :=
  { name := "owner", allowMissing := true, indexer := .single (IdentifierIndex.field (·.owner)) }

/-- The name of the table of ships. -/
def ships : String :=
  "ships"

/-- The table of ships. -/
def table : TableSchema Ship :=
  { name := ships
    indexes := [(primaryName, byCode), ("name", byName), ("owner", byOwner)] }

/-- The schema with the table of ships. -/
def schema : Schema Ship :=
  ⟨[(ships, table)]⟩

end Ship

end SnapStore
