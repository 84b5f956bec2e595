import SnapStore.Transaction.Basic
import SnapStore.Results

/-! # Queries

A query names a table, an index and arguments. Behind the name of an index the suffix
`_prefix` asks for the objects whose keys start with what the arguments give. Without
arguments a query covers the whole index.
-/

namespace SnapStore

variable {α : Type}

/-- The suffix that turns the name of an index into its form for stems. -/
def stemSuffix : String :=
  "_prefix"

/-- The name before the suffix for stems, if there is one. -/
def stemBase? (name : String) : Option String :=
  let chars := name.toList
  let suffix := stemSuffix.toList
  if suffix.isSuffixOf chars then
    some (String.ofList (chars.take (chars.length - suffix.length)))
  else none

/-- A query against one index: the index, the key or stem to look for, and whether the
query asked for stems. -/
structure Query (α : Type) where
  name : String
  index : IndexSchema α
  key : Key
  byStem : Bool

namespace Query

/-- Whether the key addresses at most one entry. -/
def isExact (q : Query α) : Bool :=
  !q.byStem && !q.key.isEmpty && !q.index.carriesPrimary

/-- The first object with the key, and the channel that fires when it may change. -/
def first (q : Query α) (tree : Tree α) : Channel × Option α :=
  if q.isExact then tree.watch q.key
  else
    let (channel, leaves) := tree.seek q.key
    (channel, leaves.head?.map Leaf.value)

/-- The last object with the key, and the channel that fires when it may change. -/
def last (q : Query α) (tree : Tree α) : Channel × Option α :=
  if q.isExact then tree.watch q.key
  else
    let (channel, leaves) := tree.seekDown q.key
    (channel, leaves.head?.map Leaf.value)

/-- All objects whose stored key starts with the key, ascending. -/
def all (q : Query α) (tree : Tree α) : Results α :=
  let (channel, leaves) := tree.seek q.key
  ⟨.forward, channel, leaves.map Leaf.value⟩

/-- All objects whose stored key starts with the key, descending. -/
def allDown (q : Query α) (tree : Tree α) : Results α :=
  let (channel, leaves) := tree.seekDown q.key
  ⟨.reverse, channel, leaves.map Leaf.value⟩

/-- All objects from the key upward. -/
def atLeast (q : Query α) (tree : Tree α) : Results α :=
  ⟨.forward, tree.channel, (tree.atLeast q.key).map Leaf.value⟩

/-- All objects from the key downward; all there are if the key is empty. Where stored
keys carry the primary key, those of the objects with the key itself lie above it, and
come first. -/
def atMost (q : Query α) (tree : Tree α) : Results α :=
  let leaves :=
    if q.key.isEmpty then tree.leavesDown
    else if q.index.carriesPrimary then (tree.seekDown q.key).2 ++ tree.atMost q.key
    else tree.atMost q.key
  ⟨.reverse, tree.channel, leaves.map Leaf.value⟩

end Query

namespace Schema

/-- The name of the index that a query asks for, and whether it asks for stems. A name
with the suffix for stems means the index before the suffix, unless an index has the
whole name. -/
def indexAsked (indexes : Catalog String (IndexSchema α)) (index : String) : String × Bool :=
  match stemBase? index with
  | some base => if (indexes.find? index).isSome then (index, false) else (base, true)
  | none => (index, false)

/-- The key or stem that arguments give in an index. Without arguments it is empty. -/
def keyOf (name : String) (index : IndexSchema α) (byStem : Bool) (args : List Arg) :
    Except Error Key :=
  if args.isEmpty then .ok []
  else if byStem then
    match index.indexer.args.stem? args with
    | none => .error (.stemNotSupported name)
    | some stem => stem.mapError .key
  else (index.indexer.args.key args).mapError .key

/-- The query that names and arguments stand for. -/
def resolve (s : Schema α) (table index : String) (args : List Arg) : Except Error (Query α) :=
  match s.table? table with
  | none => .error (.tableNotFound table)
  | some schema =>
    let (name, byStem) := indexAsked schema.indexes index
    match schema.indexes.find? name with
    | none => .error (.indexNotFound table name)
    | some indexSchema =>
      (keyOf name indexSchema byStem args).map fun key => ⟨name, indexSchema, key, byStem⟩

end Schema

namespace Txn

/-- A query together with the tree it reads. -/
def lookup (t : Txn α) (table index : String) (args : List Arg) :
    Except Error (Query α × Tree α) := do
  t.ensureActive
  let query ← t.schema.resolve table index args
  let tree ← t.readable table query.name
  return (query, tree)

end Txn

namespace TxnM

/-- Answers a query for one object. -/
def lookup {β : Type} (answer : Query α → Tree α → β) (table index : String)
    (args : List Arg) : TxnM α β := do
  let (query, tree) ← lift ((← txn).lookup table index args)
  count fun s => { s with lookups := s.lookups + 1 }
  return answer query tree

/-- Answers a query for several objects. -/
def iterate {β : Type} (answer : Query α → Tree α → β) (table index : String)
    (args : List Arg) : TxnM α β := do
  let (query, tree) ← lift ((← txn).lookup table index args)
  count fun s => { s with iterators := s.iterators + 1 }
  return answer query tree

/-- The first object a query finds, with a channel. -/
def first (table index : String) (args : List Arg) : TxnM α (Channel × Option α) :=
  lookup Query.first table index args

/-- The last object a query finds, with a channel. -/
def last (table index : String) (args : List Arg) : TxnM α (Channel × Option α) :=
  lookup Query.last table index args

/-- The objects a query finds, ascending. -/
def all (table index : String) (args : List Arg) : TxnM α (Results α) :=
  iterate Query.all table index args

/-- The objects a query finds, descending. -/
def allDown (table index : String) (args : List Arg) : TxnM α (Results α) :=
  iterate Query.allDown table index args

/-- The objects from the key of a query upward. -/
def atLeast (table index : String) (args : List Arg) : TxnM α (Results α) :=
  iterate Query.atLeast table index args

/-- The objects from the key of a query downward. -/
def atMost (table index : String) (args : List Arg) : TxnM α (Results α) :=
  iterate Query.atMost table index args

end TxnM

end SnapStore
