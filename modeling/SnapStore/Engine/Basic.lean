import SnapStore.Store
import SnapStore.Transaction.Write

/-! # Engines

An engine is everything that runs together: the board of channels, the stores with the
snapshots taken from them, and all transactions ever opened. Stores and transactions are
known by their position. Each function is one step of one participant; steps of
different participants may come in any order.
-/

namespace SnapStore

variable {α : Type}

/-- All stores and transactions, and the board of their channels. -/
structure Engine (α : Type) where
  board : Board := {}
  stores : List (Store α) := []
  txns : List (Txn α) := []

namespace Engine

/-- Changes one store. -/
def updateStore (s : Engine α) (id : Nat) (f : Store α → Store α) : Engine α :=
  { s with stores := s.stores.modify id f }

/-- Changes one transaction. -/
def updateTxn (s : Engine α) (id : Nat) (f : Txn α → Txn α) : Engine α :=
  { s with txns := s.txns.modify id f }

/-! ## Stores -/

/-- Adds a store, and answers with its position. -/
def addStore (s : Engine α) (store : Store α) : Nat × Engine α :=
  (s.stores.length, { s with stores := s.stores ++ [store] })

/-- Makes a new store, unless the schema is wrong. -/
def create (s : Engine α) (schema : Schema α) (settings : Settings) :
    Except Error (Nat × Engine α) :=
  let (name, board) := s.board.newName
  match Store.create schema settings name with
  | .error e => .error e
  | .ok store => .ok ({ s with board := board }.addStore store)

/-- Takes a snapshot of a store. -/
def snapshotStore (s : Engine α) (store : Nat) : Option (Nat × Engine α) :=
  match s.stores[store]? with
  | none => none
  | some st => some (s.addStore st.snapshot)

/-! ## Opening transactions -/

/-- Adds a transaction, made under a new name, and answers with its position. -/
def addTxn (s : Engine α) (make : Nat → Txn α) : Nat × Engine α :=
  let (name, board) := s.board.newName
  (s.txns.length, { s with board := board, txns := s.txns ++ [make name] })

/-- Opens a read transaction. -/
def openRead (s : Engine α) (store : Nat) : Option (Nat × Engine α) :=
  match s.stores[store]? with
  | none => none
  | some st =>
    let s := s.updateStore store fun st =>
      { st with stats := { st.stats with readTxns := st.stats.readTxns + 1 } }
    some (s.addTxn (st.reader store))

/-- Asks for a write transaction; from now on a writer waits for its turn. -/
def requestWrite (s : Engine α) (store : Nat) : Engine α :=
  s.updateStore store fun st =>
    { st with
      stats := { st.stats with writeTxns := st.stats.writeTxns + 1 }
      waiting := st.waiting + 1 }

/-- Opens a write transaction for a waiting writer, unless another one is active. It
captures the root that is current now, and not the one at the time it asked. -/
def acquireWrite (s : Engine α) (store : Nat) : Option (Nat × Engine α) :=
  match s.stores[store]? with
  | none => none
  | some st =>
    if st.writer.isSome || st.waiting = 0 then none
    else
      let s := s.updateStore store fun st =>
        { st with writer := some s.txns.length, waiting := st.waiting - 1 }
      some (s.addTxn (st.newWriter store))

/-- Opens a write transaction at once, unless another one is active. -/
def openWrite (s : Engine α) (store : Nat) : Option (Nat × Engine α) :=
  (s.requestWrite store).acquireWrite store

/-! ## Running operations -/

/-- Runs an operation of a transaction; nothing if there is no such transaction. -/
def run {β : Type} (s : Engine α) (id : Nat) (op : TxnM α β) :
    Option (Except Error β × Engine α) :=
  match s.txns[id]? with
  | none => none
  | some t =>
    match s.stores[t.store]? with
    | none => none
    | some st =>
      let put (after : Session α) : Engine α :=
        (s.updateTxn id fun _ => after.txn).updateStore t.store fun st =>
          { st with stats := after.stats }
      match op.run ⟨t, st.stats⟩ with
      | .ok b after => some (.ok b, put after)
      | .error e after => some (.error e, put after)

/-- Runs a read operation of a transaction on each index of its store in turn, in the
order of names. -/
def runEach {β : Type} (s : Engine α) (id : Nat) (op : String → String → TxnM α β) :
    List (String × String) → List (String × String × Except Error β) × Engine α
  | [] => ([], s)
  | (table, index) :: rest =>
    match s.run id (op table index) with
    | none => ([], s)
    | some (result, s) =>
      let (results, s) := s.runEach id op rest
      ((table, index, result) :: results, s)

/-- Opens a read transaction over what another transaction sees now. -/
def snapshotTxn (s : Engine α) (id : Nat) : Option (Except Error Nat × Engine α) :=
  match s.txns[id]? with
  | none => none
  | some t =>
    match t.ensureActive with
    | .error e => some (.error e, s)
    | .ok () =>
      let view (name : Nat) : Txn α :=
        { store := t.store, name := name, schema := t.schema, primary := t.primary,
          write := false
          root := if t.handles.isEmpty then t.root else (t.rootDraft ⟨name, 0, 0⟩ false).tree }
      let (id, s) := s.addTxn view
      some (.ok id, s)

end Engine

end SnapStore
