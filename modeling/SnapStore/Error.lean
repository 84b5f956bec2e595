import SnapStore.Index.Failure

/-! # Errors

Every way an operation can fail, as a cause with the names it concerns. `message` gives
each cause its wording.
-/

namespace SnapStore

/-- What is wrong with a schema. -/
inductive SchemaError where
  /-- There are no tables. -/
  | noTables
  /-- A table stands under another name than its own. -/
  | tableNameMismatch (name : String)
  /-- A table has an empty name. -/
  | missingTableName
  /-- A table has no indexes. -/
  | noIndexes (table : String)
  /-- A table has no primary index. -/
  | missingPrimary (table : String)
  /-- The primary index is not unique. -/
  | primaryNotUnique (table : String)
  /-- The primary index may derive several keys. -/
  | primaryNotSingle (table : String)
  /-- An index stands under another name than its own. -/
  | indexNameMismatch (table index : String)
  /-- An index has an empty name. -/
  | missingIndexName (table : String)
  deriving DecidableEq, Repr

/-- The wording of a schema error. -/
def SchemaError.message : SchemaError → String
  | noTables => "schema has no tables defined"
  | tableNameMismatch name => s!"table name mis-match for '{name}'"
  | missingTableName => "missing table name"
  | noIndexes table => s!"missing table indexes for '{table}'"
  | missingPrimary table => s!"table {Quoted.quote table}: must have id index"
  | primaryNotUnique table => s!"table {Quoted.quote table}: id index must be unique"
  | primaryNotSingle table =>
    s!"table {Quoted.quote table}: id index must be a single-value indexer"
  | indexNameMismatch table index =>
    s!"table {Quoted.quote table}: index name mis-match for '{index}'"
  | missingIndexName table => s!"table {Quoted.quote table}: missing index name"

/-- The two ways in which a write transaction ends. -/
inductive Ending where
  | commit
  | abort
  deriving DecidableEq, Repr

/-- Why an operation failed. -/
inductive Error where
  /-- The schema of a new store is wrong. -/
  | schema (cause : SchemaError)
  /-- The schema has no such table. -/
  | tableNotFound (table : String)
  /-- The table has no such index. -/
  | indexNotFound (table index : String)
  /-- The object to delete is not stored. -/
  | notFound (table : String)
  /-- The object has no primary key. -/
  | missingPrimaryKey (table : String)
  /-- The object has no key in an index that needs one. -/
  | missingIndexValue (table index : String)
  /-- The keys of the object cannot be derived. -/
  | indexer (table index : String) (cause : KeyError)
  /-- The key of a query cannot be derived. -/
  | key (cause : KeyError)
  /-- The index cannot be searched by stems. -/
  | stemNotSupported (index : String)
  /-- A read transaction was asked to write. -/
  | readOnly
  /-- The transaction has ended. -/
  | ended (ending : Ending)
  /-- A removal by stem names an index that is not one of stems. -/
  | notStemIndex (index : String)
  deriving DecidableEq

/-- The wording of an error. -/
def Error.message : Error → String
  | schema cause => s!"invalid schema: {cause.message}"
  | tableNotFound table => s!"invalid table '{table}'"
  | indexNotFound table index => s!"invalid index '{index}' on table '{table}'"
  | notFound table => s!"not found in table '{table}'"
  | missingPrimaryKey table => s!"object missing primary index in table '{table}'"
  | missingIndexValue table index => s!"missing value for index '{index}' in table '{table}'"
  | indexer table index cause =>
    s!"failed to build index '{index}' in table '{table}': {cause.message}"
  | key cause => cause.message
  | stemNotSupported index => s!"index '{index}' does not support prefix scanning"
  | readOnly => "cannot modify the database in a read-only transaction"
  | ended .commit => "invalid operation: transaction already committed"
  | ended .abort => "invalid operation: transaction already aborted"
  | notStemIndex index =>
    s!"invalid operation: index name for delete_prefix must be a prefix index, got '{index}'"

end SnapStore
