import SnapStore.Transaction.Basic

/-! # Stores

A store is a database in memory: the declared indexes with their current contents. It
has one current root. Whoever commits puts a new root in place, and one writer at a
time may work towards the next one.
-/

namespace SnapStore

variable {α : Type}

/-- The names of all indexes with their tables, by table and then by index. -/
def Schema.indexes (s : Schema α) : List (String × String) :=
  s.tables.flatMap fun (table, schema) => schema.indexes.map fun (index, _) => (table, index)

/-- The paths of all indexes. -/
def Schema.paths (s : Schema α) : List Key :=
  s.indexes.map fun (table, index) => indexPath table index

/-- A database: its schema and settings, its current root, whether its commits fire
channels, its counters, the write transaction that is active, and how many writers wait
for their turn. -/
structure Store (α : Type) where
  schema : Schema α
  settings : Settings
  root : Root α
  primary : Bool := true
  stats : Stats := {}
  writer : Option Nat := none
  waiting : Nat := 0

namespace Store

/-- The first root of a store: an empty tree at each path. All channels are made under
the given name. -/
def emptyRoot (name : Nat) (paths : List Key) : Root α :=
  let root : Root α := .empty ⟨⟨name, 0, 0⟩, 0, .node⟩
  let insert (d : Draft (Tree α)) (i : Nat) (path : Key) : Draft (Tree α) :=
    (d.insert path (.empty ⟨⟨name, i + 2, 0⟩, 0, .node⟩)).1
  let draft := paths.zipIdx.foldl (fun d (path, i) => insert d i path) (root.edit ⟨name, 1, 0⟩)
  draft.tree

/-- A new store, unless the schema is wrong. -/
def create (schema : Schema α) (settings : Settings) (name : Nat) : Except Error (Store α) :=
  match schema.validate with
  | .error cause => .error (.schema cause)
  | .ok () => .ok { schema := schema, settings := settings, root := emptyRoot name schema.paths }

/-- A store of its own with the current contents. Its commits fire no channels, since it
shares its trees with the store it was taken from. -/
def snapshot (s : Store α) : Store α :=
  { schema := s.schema, settings := s.settings, root := s.root, primary := false }

/-- A store in words. -/
def describe (s : Store α) : String :=
  Outline.record "Database"
    [("tables", Outline.list (s.schema.tables.keys.map Quoted.quote)),
      ("primary", Outline.bool s.primary), ("config", s.settings.describe)]

/-- A read transaction over the current contents, opened as the transaction `id`. -/
def reader (s : Store α) (id name : Nat) : Txn α :=
  { store := id, name := name, schema := s.schema, primary := s.primary, write := false,
    root := s.root }

/-- A write transaction over the current contents. -/
def newWriter (s : Store α) (id name : Nat) : Txn α :=
  { s.reader id name with
    write := true, changes := if s.settings.trackChanges then some {} else none }

end Store

end SnapStore
