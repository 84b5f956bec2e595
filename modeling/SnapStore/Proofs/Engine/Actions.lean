import SnapStore.Proofs.Transaction.Ledger
import SnapStore.Engine.Ending

/-! # Runs of an engine

An action is one step of one participant: it makes or copies a store, opens a transaction,
writes or reads in one, or ends one. An action that is not possible changes nothing. A run
is a list of actions in any order, as participants that know nothing of each other make
them.

Main statements: `Scan.run_eq` (a query reads the tree of its index and changes nothing but
counters) and `writes_readOnly` (a read transaction refuses every write).
-/

namespace SnapStore

variable {α : Type}

/-! ## Queries as data -/

/-- The ways to query an index. -/
inductive Scan where
  | first
  | last
  | all
  | allDown
  | atLeast
  | atMost
  deriving DecidableEq, Repr

namespace Scan

/-- What a query answers over a tree: a channel, and the objects in order. -/
def answer : Scan → Query α → Tree α → Channel × List α
  | first, q, tree => ((q.first tree).1, (q.first tree).2.toList)
  | last, q, tree => ((q.last tree).1, (q.last tree).2.toList)
  | all, q, tree => ((q.all tree).channel, (q.all tree).objects)
  | allDown, q, tree => ((q.allDown tree).channel, (q.allDown tree).objects)
  | atLeast, q, tree => ((q.atLeast tree).channel, (q.atLeast tree).objects)
  | atMost, q, tree => ((q.atMost tree).channel, (q.atMost tree).objects)

/-- A query as an operation of a transaction. -/
def run (table index : String) (args : List Arg) : Scan → TxnM α (Channel × List α)
  | first => do
    let (channel, found) ← TxnM.first table index args
    return (channel, found.toList)
  | last => do
    let (channel, found) ← TxnM.last table index args
    return (channel, found.toList)
  | all => do
    let found ← TxnM.all table index args
    return (found.channel, found.objects)
  | allDown => do
    let found ← TxnM.allDown table index args
    return (found.channel, found.objects)
  | atLeast => do
    let found ← TxnM.atLeast table index args
    return (found.channel, found.objects)
  | atMost => do
    let found ← TxnM.atMost table index args
    return (found.channel, found.objects)

end Scan

theorem TxnM.run_lookup {β : Type} (answer : Query α → Tree α → β) (table index : String)
    (args : List Arg) (s : Session α) :
    (lookup answer table index args).run s =
      match s.txn.lookup table index args with
      | .ok (q, tree) =>
        .ok (answer q tree) { s with stats := { s.stats with lookups := s.stats.lookups + 1 } }
      | .error e => .error e s := by
  simp only [lookup, run_bind, run_txn]
  cases s.txn.lookup table index args with
  | error e => rfl
  | ok x => rfl

/-- A query answers over the tree of its index, and changes nothing but counters. -/
theorem Scan.run_eq (scan : Scan) (table index : String) (args : List Arg) (t : Txn α)
    (stats : Stats) :
    ∃ stats', (scan.run table index args).run ⟨t, stats⟩ =
      match t.lookup table index args with
      | .ok (q, tree) => .ok (scan.answer q tree) ⟨t, stats'⟩
      | .error e => .error e ⟨t, stats⟩ := by
  cases scan with
  | first | last =>
    refine ⟨{ stats with lookups := stats.lookups + 1 }, ?_⟩
    simp only [run, TxnM.first, TxnM.last, TxnM.run_bind, TxnM.run_lookup]
    cases t.lookup table index args <;> rfl
  | all | allDown | atLeast | atMost =>
    refine ⟨{ stats with iterators := stats.iterators + 1 }, ?_⟩
    simp only [run, TxnM.all, TxnM.allDown, TxnM.atLeast, TxnM.atMost, TxnM.run_bind,
      TxnM.run_iterate]
    cases t.lookup table index args <;> rfl

theorem Scan.leaves_txn (scan : Scan) (table index : String) (args : List Arg) (t : Txn α)
    (stats : Stats) : ((scan.run table index args).leaves ⟨t, stats⟩).txn = t := by
  rcases scan.run_eq table index args t stats with ⟨stats', h⟩
  rw [TxnM.leaves, h]
  cases t.lookup table index args <;> rfl

/-! ## Actions -/

/-- One step of one participant. Stores and transactions are known by their position. -/
inductive Action (α : Type) where
  | create (schema : Schema α) (settings : Settings)
  | snapshotStore (store : Nat)
  | openRead (store : Nat)
  | requestWrite (store : Nat)
  | acquireWrite (store : Nat)
  | snapshotTxn (id : Nat)
  | write (id : Nat) (w : Write α)
  | query (id : Nat) (scan : Scan) (table index : String) (args : List Arg)
  | trackChanges (id : Nat)
  | defer (id : Nat) (job : Job α)
  /-- Commits a write transaction. Its deferred jobs make actions of their own, see
  `Engine.Sound.reaches_commit`. -/
  | commit (id : Nat)
  | abort (id : Nat)
  | drop (id : Nat)

/-- Whether a transaction may write and has not ended. -/
def Txn.isWriting (t : Txn α) : Bool :=
  t.write && t.state = .active

namespace Engine

/-- The engine after a step that may not be possible. -/
def next {β : Type} (s : Engine α) : Option (β × Engine α) → Engine α
  | some (_, s') => s'
  | none => s

/-- Commits a write transaction, and takes its deferred jobs from it. -/
def commitOne (s : Engine α) (id : Nat) : Engine α :=
  match s.txns[id]? with
  | none => s
  | some t =>
    if t.isWriting then
      (s.commitWrites id t.store).updateTxn id fun t => { t with deferred := [] }
    else s

/-- The engine after an action. -/
def perform (s : Engine α) : Action α → Engine α
  | .create schema settings => s.next (s.create schema settings).toOption
  | .snapshotStore store => s.next (s.snapshotStore store)
  | .openRead store => s.next (s.openRead store)
  | .requestWrite store => s.requestWrite store
  | .acquireWrite store => s.next (s.acquireWrite store)
  | .snapshotTxn id => s.next (s.snapshotTxn id)
  | .write id w => s.next (s.run id (TxnM.write w))
  | .query id scan table index args => s.next (s.run id (scan.run table index args))
  | .trackChanges id => s.updateTxn id Txn.trackChanges
  | .defer id job => s.updateTxn id (·.defer job)
  | .commit id => s.commitOne id
  | .abort id => s.next (s.abort id)
  | .drop id => s.drop id

/-- The engine after a run. -/
def performAll (s : Engine α) (actions : List (Action α)) : Engine α :=
  actions.foldl perform s

@[simp] theorem performAll_nil (s : Engine α) : s.performAll [] = s := rfl

@[simp] theorem performAll_cons (s : Engine α) (a : Action α) (actions : List (Action α)) :
    s.performAll (a :: actions) = (s.perform a).performAll actions := rfl

@[simp] theorem performAll_append (s : Engine α) (actions more : List (Action α)) :
    s.performAll (actions ++ more) = (s.performAll actions).performAll more :=
  List.foldl_append

/-! ## Where stores and transactions stand -/

theorem getElem?_modify_iff {β : Type} {xs : List β} {f : β → β} {i n : Nat} {y : β} :
    (xs.modify i f)[n]? = some y ↔ ∃ x, xs[n]? = some x ∧ y = if n = i then f x else x := by
  rw [List.getElem?_modify, Option.map_eq_map, Option.map_eq_some_iff]
  refine exists_congr fun x => and_congr_right fun _ => ?_
  simp only [eq_comm (a := n)]
  exact eq_comm

theorem getElem?_stores_updateStore {s : Engine α} {store : Nat} {f : Store α → Store α} {n : Nat}
    {st' : Store α} : (s.updateStore store f).stores[n]? = some st' ↔
      ∃ st, s.stores[n]? = some st ∧ st' = if n = store then f st else st :=
  getElem?_modify_iff

theorem stores_updateStore_self {s : Engine α} {store : Nat} {f : Store α → Store α} {st : Store α}
    (h : s.stores[store]? = some st) : (s.updateStore store f).stores[store]? = some (f st) :=
  getElem?_stores_updateStore.2 ⟨st, h, (if_pos rfl).symm⟩

theorem stores_updateStore_of_ne {s : Engine α} {store n : Nat} {f : Store α → Store α}
    (hne : n ≠ store) : (s.updateStore store f).stores[n]? = s.stores[n]? :=
  List.getElem?_modify_ne _ _ (Ne.symm hne)

theorem txns_updateTxn_self {s : Engine α} {id : Nat} {f : Txn α → Txn α} {t : Txn α}
    (h : s.txns[id]? = some t) : (s.updateTxn id f).txns[id]? = some (f t) :=
  getElem?_modify_iff.2 ⟨t, h, (if_pos rfl).symm⟩

theorem txns_updateTxn_of_ne {s : Engine α} {id n : Nat} {f : Txn α → Txn α} (hne : id ≠ n) :
    (s.updateTxn n f).txns[id]? = s.txns[id]? :=
  List.getElem?_modify_ne _ _ (Ne.symm hne)

theorem getElem?_txns_updateTxn {s : Engine α} {id : Nat} {f : Txn α → Txn α} {n : Nat}
    {t' : Txn α} : (s.updateTxn id f).txns[n]? = some t' ↔
      ∃ t, s.txns[n]? = some t ∧ t' = if n = id then f t else t :=
  getElem?_modify_iff

theorem getElem?_concat_iff {β : Type} {xs : List β} {x y : β} {n : Nat} :
    (xs ++ [x])[n]? = some y ↔ xs[n]? = some y ∨ n = xs.length ∧ y = x := by
  rcases Nat.lt_trichotomy n xs.length with h | rfl | h
  · simp [List.getElem?_append_left h, Nat.ne_of_lt h]
  · simp [eq_comm]
  · have hnone : xs[n]? = none := List.getElem?_eq_none (Nat.le_of_lt h)
    have hnone' : (xs ++ [x])[n]? = none :=
      List.getElem?_eq_none (by simpa using Nat.succ_le_of_lt h)
    simp [hnone, hnone', Nat.ne_of_gt h]

/-! ## Running operations -/

section run

variable {β : Type} {s : Engine α} {id : Nat} {t : Txn α} {st : Store α}

/-- The engine after an operation has the session that the operation leaves. -/
theorem next_run {op : TxnM α β} (ht : s.txns[id]? = some t)
    (hst : s.stores[t.store]? = some st) :
    s.next (s.run id op) =
      (s.updateTxn id fun _ => (op.leaves ⟨t, st.stats⟩).txn).updateStore t.store
        fun st' => { st' with stats := (op.leaves ⟨t, st.stats⟩).stats } := by
  simp only [run, ht, hst, TxnM.leaves]
  cases op.run ⟨t, st.stats⟩ <;> rfl

theorem next_run_none {op : TxnM α β} (ht : s.txns[id]? = none) : s.next (s.run id op) = s := by
  simp only [run, ht, next]

end run

/-! ## Endings -/

section endings

variable {s : Engine α} {id : Nat} {t : Txn α}

theorem foldl_fire (cs : List Channel) (s : Engine α) :
    cs.foldl fire s = { s with board := s.board.fireAll cs } := by
  induction cs generalizing s with
  | nil => rfl
  | cons c cs ih => rw [List.foldl_cons, ih]; rfl

/-- A transaction is published with all channels that its drafts have displaced. -/
theorem publish_eq (ht : s.txns[id]? = some t) :
    s.publish id =
      (t.handles.flatMap (fun x => x.2.displaced) ++
          (t.rootDraft ⟨t.name, 0, 0⟩ t.primary).displaced,
        (s.updateStore t.store fun st =>
          { st with root := (t.rootDraft ⟨t.name, 0, 0⟩ t.primary).tree }).updateTxn id fun t' =>
          { t' with root := (t.rootDraft ⟨t.name, 0, 0⟩ t.primary).tree, handles := [] }) := by
  simp only [publish, ht]

/-- The steps of a commit after its root is in place. -/
theorem commitWrites_eq (ht : s.txns[id]? = some t) :
    s.commitWrites id t.store =
      ((({ (s.publish id).2 with board := s.board.fireAll (s.publish id).1 } : Engine α).mark id
        .commit).release t.store).tally t.store .commit := by
  simp only [commitWrites, foldl_fire, publish_eq ht]
  rfl

/-- A published transaction reads from its own root. -/
theorem txns_publish_self (ht : s.txns[id]? = some t) :
    (s.publish id).2.txns[id]? =
      some { t with root := (t.rootDraft ⟨t.name, 0, 0⟩ t.primary).tree, handles := [] } := by
  rw [publish_eq ht]
  exact txns_updateTxn_self ht

theorem drop_of_some (ht : s.txns[id]? = some t) :
    s.drop id = if t.isWriting then s.abortWrites id t.store else s := by
  rw [drop, ht]
  rfl

theorem drop_of_none (ht : s.txns[id]? = none) : s.drop id = s := by
  rw [drop, ht]

/-- An abort does to the engine what dropping the transaction does. -/
theorem next_abort (s : Engine α) (id : Nat) : s.next (s.abort id) = s.drop id := by
  cases ht : s.txns[id]? with
  | none => simp only [abort, ht, next, drop_of_none ht]
  | some t =>
    rw [drop_of_some ht]
    rcases hstate : t.state with _ | ending
    · have hactive : t.ensureActive = .ok () := by rw [Txn.ensureActive, hstate]
      simp [abort, ht, hactive, Txn.isWriting, hstate, next]
    · have hended : t.ensureActive = .error (.ended ending) := by rw [Txn.ensureActive, hstate]
      simp [abort, ht, hended, Txn.isWriting, hstate, next]

end endings

end Engine

/-! ## Read transactions -/

theorem Txn.ensureWrite_readOnly {t : Txn α} (h : t.write = false) :
    ∃ e, t.ensureWrite = .error e := by
  unfold ensureWrite
  cases t.ensureActive with
  | error e => exact ⟨e, rfl⟩
  | ok _ => exact ⟨.readOnly, by simp [h, bind, Except.bind]⟩

/-- A transaction that may not write, or has ended, refuses to write. -/
theorem Txn.ensureWrite_of_idle {t : Txn α} (h : ¬ t.isWriting = true) :
    ∃ e, t.ensureWrite = .error e := by
  cases hw : t.write with
  | false => exact ensureWrite_readOnly hw
  | true =>
    cases hstate : t.state with
    | active => simp [isWriting, hw, hstate] at h
    | ended ending =>
      refine ⟨.ended ending, ?_⟩
      rw [ensureWrite, ensureActive, hstate]
      rfl

/-- A transaction that refuses to write refuses every write alike. -/
theorem TxnM.run_write_refused {t : Txn α} {e : Error} (he : t.ensureWrite = .error e)
    (w : Write α) (stats : Stats) : (write w).run ⟨t, stats⟩ = .error e ⟨t, stats⟩ := by
  cases w with
  | insert table object => simp [write, insert, he]
  | delete table object => simp [write, delete, he]
  | deleteStem table index args => simp [write, deleteStem, he]
  | deleteAll table index args => simp [write, deleteAll, he]

/-- A read transaction refuses every write. -/
theorem TxnM.writes_readOnly {t : Txn α} (h : t.write = false) (w : Write α) (stats : Stats) :
    ∃ e, (write w).run ⟨t, stats⟩ = .error e ⟨t, stats⟩ := by
  rcases Txn.ensureWrite_readOnly h with ⟨e, he⟩
  exact ⟨e, run_write_refused he w stats⟩

end SnapStore
