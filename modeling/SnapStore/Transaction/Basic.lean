import SnapStore.Radix.Tree
import SnapStore.Schema
import SnapStore.Settings
import SnapStore.ChangeLog
import SnapStore.Transaction.Job

/-! # Transactions

A store keeps every index as a tree from stored keys to objects, and these trees in a
root tree, each under the path of its table and index. A transaction reads from the
root it captured when it was opened. A write transaction keeps a draft of each index it
has touched; nobody else sees them before the commit.

Operations run in a `Session`: the transaction with the counters of its store. An
operation that fails keeps the session as far as it has come.
-/

namespace SnapStore

variable {α : Type}

/-- The trees of all indexes, by their paths. -/
abbrev Root (α : Type) := Tree (Tree α)

/-- The path of an index: the names of table and index joined by a point. -/
def indexPath (table index : String) : Key :=
  Key.ofText table ++ 0x2e :: Key.ofText index

/-- The stage of a transaction. -/
inductive TxnState where
  | active
  | ended (ending : Ending)
  deriving DecidableEq, Repr

/-- The stage in a word. -/
def TxnState.describe : TxnState → String
  | active => "Active"
  | ended .commit => "Committed"
  | ended .abort => "Aborted"

/-- A transaction: the store it belongs to, the name its channels are made under, the
schema of the store and whether the store is the primary one, whether it may write, its
stage, the root it reads from, the drafts of the indexes it has touched, its change log
if it keeps one, and its deferred jobs in the order of registration. -/
structure Txn (α : Type) where
  store : Nat
  name : Nat
  schema : Schema α
  primary : Bool
  write : Bool
  state : TxnState := .active
  root : Root α
  handles : Catalog Key (Draft α) := []
  changes : Option (ChangeLog α) := none
  deferred : List (Job α) := []

namespace Txn

/-- Refuses a transaction that has ended. -/
def ensureActive (t : Txn α) : Except Error Unit :=
  match t.state with
  | .active => .ok ()
  | .ended ending => .error (.ended ending)

/-- Refuses a transaction that has ended or may not write. -/
def ensureWrite (t : Txn α) : Except Error Unit := do
  t.ensureActive
  if t.write then .ok () else .error .readOnly

/-- The tree of an index as the transaction sees it: its draft if there is one, and the
captured tree otherwise. -/
def readable (t : Txn α) (table index : String) : Except Error (Tree α) :=
  let path := indexPath table index
  match t.handles.find? path with
  | some draft => .ok draft.tree
  | none =>
    match t.root.get? path with
    | some tree => .ok tree
    | none => .error (.indexNotFound table index)

/-- The stamp of the next draft. The first one is left to the root. -/
def nextStamp (t : Txn α) : Stamp :=
  ⟨t.name, t.handles.length + 1, 0⟩

/-- The draft of an index, a new one if the index has not been touched. Only the primary
store collects channels. -/
def writable (t : Txn α) (table index : String) : Except Error (Draft α) :=
  let path := indexPath table index
  match t.handles.find? path with
  | some draft => .ok draft
  | none =>
    match t.root.get? path with
    | some tree => .ok ((tree.edit t.nextStamp).track t.primary)
    | none => .error (.indexNotFound table index)

/-- A draft of the root with the trees of all touched indexes in place. -/
def rootDraft (t : Txn α) (stamp : Stamp) (tracking : Bool) : Draft (Tree α) :=
  t.handles.foldl (fun d (path, draft) => (d.insert path draft.tree).1)
    ((t.root.edit stamp).track tracking)

/-- Registers a job to run after the commit. -/
def defer (t : Txn α) (job : Job α) : Txn α :=
  { t with deferred := t.deferred ++ [job] }

/-- Starts a change log, unless there is one. -/
def trackChanges (t : Txn α) : Txn α :=
  { t with changes := some (t.changes.getD {}) }

/-- A transaction in words. -/
def describe (t : Txn α) : String :=
  Outline.record "Txn"
    [("write", Outline.bool t.write), ("state", t.state.describe),
      ("modified", toString t.handles.length)]

end Txn

/-! ## Sessions -/

/-- A transaction with the counters of its store. -/
structure Session (α : Type) where
  txn : Txn α
  stats : Stats

/-- An operation of a transaction. What it did before it failed stays done. -/
abbrev TxnM (α β : Type) := EStateM Error (Session α) β

namespace TxnM

/-- The outcome of a check or a derivation that changes nothing. -/
def lift {β : Type} : Except Error β → TxnM α β
  | .ok b => pure b
  | .error e => throw e

/-- The transaction. -/
def txn : TxnM α (Txn α) := do
  return (← get).txn

/-- Changes the counters. -/
def count (f : Stats → Stats) : TxnM α Unit :=
  modify fun s => { s with stats := f s.stats }

/-- Edits the draft of an index, opening it if need be. -/
def editIndex {β : Type} (table index : String) (f : Draft α → Draft α × β) : TxnM α β := do
  let draft ← lift ((← txn).writable table index)
  let (draft, b) := f draft
  modify fun s =>
    { s with txn := { s.txn with
        handles := Catalog.insert (indexPath table index) draft s.txn.handles } }
  return b

/-- Notes a change in the change log, if there is one. -/
def log (table : String) (key : Key) (before after : Option α) : TxnM α Unit :=
  modify fun s =>
    { s with txn := { s.txn with
        changes := s.txn.changes.map (·.record table key before after) } }

end TxnM

end SnapStore
