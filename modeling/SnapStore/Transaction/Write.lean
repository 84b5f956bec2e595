import SnapStore.Transaction.Query

/-! # Writes

A write first plans: it derives every key it is going to touch, which may fail. Only
then it edits the drafts of the indexes.
-/

namespace SnapStore

variable {α : Type}

/-- The keys an index is to lose and to gain. -/
structure IndexPlan where
  index : String
  remove : List Key
  insert : List Key
  deriving DecidableEq, Repr

namespace IndexSchema

/-- The keys under which an index stores an object: the derived keys, with the primary
key behind each where the index carries it. The index stands under `name`. -/
def storedKeys (i : IndexSchema α) (table name : String) (object : α) (primary : Key) :
    Except Error (List Key) :=
  match i.indexer.keys object with
  | .error cause => .error (.indexer table name cause)
  | .ok keys => .ok (if i.carriesPrimary then keys.map (· ++ primary) else keys)

end IndexSchema

namespace TableSchema

/-- The primary key of an object. -/
def primaryKey (t : TableSchema α) (table : String) (object : α) : Except Error Key :=
  match t.primary? with
  | none => .error (.indexNotFound table primaryName)
  | some index =>
    match index.indexer.keys object with
    | .error cause => .error (.indexer table primaryName cause)
    | .ok [] => .error (.missingPrimaryKey table)
    | .ok (key :: _) => .ok key

/-- Each object with its primary key, without repeats of a primary key among those
seen. -/
def distinct (t : TableSchema α) (table : String) :
    List Key → List α → Except Error (List (Key × α))
  | _, [] => .ok []
  | seen, object :: rest => do
    let key ← t.primaryKey table object
    if seen.contains key then t.distinct table seen rest
    else return (key, object) :: (← t.distinct table (key :: seen) rest)

/-- The plan for storing an object in place of an existing one with the same primary
key. An index that needs a key refuses an object without one. -/
def planInsert (table : String) (object : α) (primary : Key) (existing : Option α) :
    Catalog String (IndexSchema α) → Except Error (List IndexPlan)
  | [] => .ok []
  | (name, index) :: rest => do
    let insert ← index.storedKeys table name object primary
    if insert.isEmpty && !index.allowMissing && name != primaryName then
      throw (.missingIndexValue table name)
    let old ← match existing with
      | some old => index.storedKeys table name old primary
      | none => .ok []
    let plan := ⟨name, old.filter (!insert.contains ·), insert⟩
    return plan :: (← planInsert table object primary existing rest)

/-- The plan for removing an object. Keys that lie in the named index under the stem
given with it are left out. -/
def planRemove (table : String) (object : α) (primary : Key) (bulk : Option (String × Key)) :
    Catalog String (IndexSchema α) → Except Error (List IndexPlan)
  | [] => .ok []
  | (name, index) :: rest => do
    let keys ← index.storedKeys table name object primary
    let remove := match bulk with
      | some (bulkIndex, stem) =>
        if bulkIndex = name then keys.filter (!·.startsWith stem) else keys
      | none => keys
    return ⟨name, remove, []⟩ :: (← planRemove table object primary bulk rest)

end TableSchema

namespace IndexPlan

/-- The draft of an index after its plan: the keys it loses first, then those it gains,
with the object under each. -/
def apply (p : IndexPlan) (object : Option α) (d : Draft α) : Draft α :=
  let d := p.remove.foldl (fun d key => (d.erase key).1) d
  match object with
  | none => d
  | some o => p.insert.foldl (fun d key => (d.insert key o).1) d

end IndexPlan

namespace TxnM

/-- Refuses a transaction that has ended or may not write. -/
def ensureWrite : TxnM α Unit := do
  lift (← txn).ensureWrite

/-- The table of a name. -/
def table (name : String) : TxnM α (TableSchema α) := do
  match (← txn).schema.table? name with
  | some t => return t
  | none => throw (.tableNotFound name)

/-- Carries plans out, one index after another. -/
def applyPlans (tableName : String) (object : Option α) : List IndexPlan → TxnM α Unit
  | [] => pure ()
  | p :: ps => do
    editIndex tableName p.index fun d => (p.apply object d, ())
    applyPlans tableName object ps

/-- The object stored under a primary key. -/
def stored (tableName : String) (primary : Key) : TxnM α (Option α) := do
  return (← lift ((← txn).readable tableName primaryName)).get? primary

/-- Stores an object in a table, in place of the one with the same primary key. -/
def insert (tableName : String) (object : α) : TxnM α Unit := do
  ensureWrite
  let schema ← table tableName
  let primary ← lift (schema.primaryKey tableName object)
  let existing ← stored tableName primary
  let plans ← lift (TableSchema.planInsert tableName object primary existing schema.indexes)
  -- each index of an accepted schema has its tree, so nothing fails from here on
  applyPlans tableName (some object) plans
  log tableName primary existing (some object)
  count fun s => { s with inserts := s.inserts + 1 }

/-- Removes a stored object from every index of its table. Keys that lie in the named
index under the stem given with it are left to the caller. -/
def remove (tableName : String) (schema : TableSchema α) (primary : Key) (object : α)
    (bulk : Option (String × Key)) : TxnM α Unit := do
  let plans ← lift (TableSchema.planRemove tableName object primary bulk schema.indexes)
  applyPlans tableName none plans
  log tableName primary (some object) none
  count fun s => { s with deletes := s.deletes + 1 }

/-- Removes several objects, given with their primary keys. -/
def removeEach (tableName : String) (schema : TableSchema α) (bulk : Option (String × Key)) :
    List (Key × α) → TxnM α Unit
  | [] => pure ()
  | (primary, object) :: rest => do
    remove tableName schema primary object bulk
    removeEach tableName schema bulk rest

/-- Deletes the object stored under the primary key of the given one. -/
def delete (tableName : String) (object : α) : TxnM α Unit := do
  ensureWrite
  let schema ← table tableName
  let primary ← lift (schema.primaryKey tableName object)
  match ← stored tableName primary with
  | none => throw (.notFound tableName)
  | some existing => remove tableName schema primary existing none

/-- Deletes every object whose key in an index starts with what the arguments give, and
answers whether there was one. The index has to be named in its form for stems. -/
def deleteStem (tableName index : String) (args : List Arg) : TxnM α Bool := do
  ensureWrite
  if (stemBase? index).isNone then throw (.notStemIndex index)
  let query ← lift ((← txn).schema.resolve tableName index args)
  let found ← all tableName index args
  if found.objects.isEmpty then return false
  let schema ← table tableName
  let objects ← lift (schema.distinct tableName [] found.objects)
  removeEach tableName schema (some (query.name, query.key)) objects
  -- the keys under the stem go all at once
  editIndex tableName query.name fun d => d.eraseStem query.key

/-- Deletes every object that a query finds, and answers how many there were. -/
def deleteAll (tableName index : String) (args : List Arg) : TxnM α Nat := do
  ensureWrite
  let found ← all tableName index args
  let schema ← table tableName
  let objects ← lift (schema.distinct tableName [] found.objects)
  removeEach tableName schema none objects
  return objects.length

/-- Makes one write. -/
def write : Write α → TxnM α Unit
  | .insert tableName object => insert tableName object
  | .delete tableName object => delete tableName object
  | .deleteStem tableName index args => do
    let _ ← deleteStem tableName index args
  | .deleteAll tableName index args => do
    let _ ← deleteAll tableName index args

/-- Makes writes in order, up to the first that fails. -/
def writeAll : List (Write α) → TxnM α Unit
  | [] => pure ()
  | w :: ws => do
    write w
    writeAll ws

end TxnM

end SnapStore
