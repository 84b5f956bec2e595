import SnapStore.Catalog
import SnapStore.Error
import SnapStore.Index.Indexer

/-! # Schemas

A schema declares tables and their indexes, and is fixed for the life of a store. Each
table has a unique index over single keys, named `id`: its key is the identity of an
object.

Main statements: `checkIndexes_eq_ok_iff` and `checkTables_eq_ok_iff`, a check passes
exactly if each entry does.
-/

namespace SnapStore

universe u

variable {α : Type u}

/-- The name of every table's primary index. -/
def primaryName : String :=
  "id"

/-- An index of a table. -/
structure IndexSchema (α : Type u) where
  name : String
  indexer : Indexer α
  unique : Bool := false
  allowMissing : Bool := false

/-- A table with its indexes. -/
structure TableSchema (α : Type u) where
  name : String
  indexes : Catalog String (IndexSchema α) := []

/-- The tables of a store. -/
structure Schema (α : Type u) where
  tables : Catalog String (TableSchema α) := []

namespace IndexSchema

/-- Whether the keys stored in the index carry the primary key behind the derived key,
since several objects may derive one key or one object several. -/
def carriesPrimary (i : IndexSchema α) : Bool :=
  !i.unique || !i.indexer.isSingle

/-- An index in words. -/
def describe (i : IndexSchema α) : String :=
  Outline.record "IndexSchema"
    [("name", Quoted.quote i.name), ("allow_missing", Outline.bool i.allowMissing),
      ("unique", Outline.bool i.unique), ("indexer", i.indexer.describe)]

end IndexSchema

namespace TableSchema

/-- The primary index. -/
def primary? (t : TableSchema α) : Option (IndexSchema α) :=
  t.indexes.find? primaryName

/-- The first fault among indexes, given with the names they stand under. -/
def checkIndexes (table : String) : Catalog String (IndexSchema α) → Except SchemaError Unit
  | [] => .ok ()
  | (name, index) :: rest =>
    if name ≠ index.name then .error (.indexNameMismatch table name)
    else if index.name.isEmpty then .error (.missingIndexName table)
    else checkIndexes table rest

theorem checkIndexes_eq_ok_iff (table : String) (indexes : Catalog String (IndexSchema α)) :
    checkIndexes table indexes = .ok () ↔
      ∀ entry ∈ indexes, entry.1 = entry.2.name ∧ entry.2.name ≠ "" := by
  induction indexes with
  | nil => simp [checkIndexes]
  | cons entry rest ih =>
    rcases entry with ⟨name, index⟩
    by_cases hn : name = index.name
    · by_cases he : index.name = "" <;> simp [checkIndexes, hn, he, ih]
    · simp [checkIndexes, hn]

/-- Checks that the table has a name, a primary index that is unique and over single
keys, and indexes under their own names. The first fault in this order is told. -/
def validate (t : TableSchema α) : Except SchemaError Unit :=
  if t.name.isEmpty then .error .missingTableName
  else if t.indexes.isEmpty then .error (.noIndexes t.name)
  else
    match t.primary? with
    | none => .error (.missingPrimary t.name)
    | some id =>
      if !id.unique then .error (.primaryNotUnique t.name)
      else if !id.indexer.isSingle then .error (.primaryNotSingle t.name)
      else checkIndexes t.name t.indexes

/-- A table in words. -/
def describe (t : TableSchema α) : String :=
  Outline.record "TableSchema"
    [("name", Quoted.quote t.name),
      ("indexes", Outline.mapping (t.indexes.map fun (name, i) => (Quoted.quote name, i.describe)))]

end TableSchema

namespace Schema

/-- The table of a name. -/
def table? (s : Schema α) (name : String) : Option (TableSchema α) :=
  s.tables.find? name

/-- The first fault among tables, given with the names they stand under. -/
def checkTables : Catalog String (TableSchema α) → Except SchemaError Unit
  | [] => .ok ()
  | (name, table) :: rest =>
    if name ≠ table.name then .error (.tableNameMismatch name)
    else
      match table.validate with
      | .error e => .error e
      | .ok () => checkTables rest

theorem checkTables_eq_ok_iff (tables : Catalog String (TableSchema α)) :
    checkTables tables = .ok () ↔
      ∀ entry ∈ tables, entry.1 = entry.2.name ∧ entry.2.validate = .ok () := by
  induction tables with
  | nil => simp [checkTables]
  | cons entry rest ih =>
    rcases entry with ⟨name, table⟩
    by_cases hn : name = table.name
    · cases hv : table.validate <;> simp [checkTables, hn, hv, ih]
    · simp [checkTables, hn]

/-- Checks that there are tables, each under its own name and itself in order. The first
fault in the order of names is told. -/
def validate (s : Schema α) : Except SchemaError Unit :=
  if s.tables.isEmpty then .error .noTables else checkTables s.tables

/-- A schema in words. -/
def describe (s : Schema α) : String :=
  Outline.record "DbSchema"
    [("tables", Outline.mapping (s.tables.map fun (name, t) => (Quoted.quote name, t.describe)))]

end Schema

end SnapStore
