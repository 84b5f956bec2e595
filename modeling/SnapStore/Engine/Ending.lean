import SnapStore.Engine.Basic

/-! # Endings of transactions

A commit is a sequence of steps: put the new root in place, fire each channel that the
transaction displaced, mark the transaction as committed, let the next writer in, and
run the deferred jobs, the last one first. Whoever is woken by a channel therefore finds
the new root. An abort forgets what the transaction did and lets the next writer in.
-/

namespace SnapStore

variable {α : Type}

namespace Engine

/-! ## The steps of a commit -/

/-- Puts the root with all changes of a transaction in place, and answers with the
channels to fire: those of each touched index in the order of paths, then those of the
root itself. -/
def publish (s : Engine α) (id : Nat) : List Channel × Engine α :=
  match s.txns[id]? with
  | none => ([], s)
  | some t =>
    -- only the primary store's channels are known to its readers
    let draft := t.rootDraft ⟨t.name, 0, 0⟩ t.primary
    let s := s.updateStore t.store fun st => { st with root := draft.tree }
    let s := s.updateTxn id fun t => { t with root := draft.tree, handles := [] }
    (t.handles.flatMap (fun (_, d) => d.displaced) ++ draft.displaced, s)

/-- Fires one channel. -/
def fire (s : Engine α) (c : Channel) : Engine α :=
  { s with board := s.board.fire c }

/-- Marks a transaction as ended. -/
def mark (s : Engine α) (id : Nat) (ending : Ending) : Engine α :=
  s.updateTxn id fun t => { t with state := .ended ending }

/-- Lets the next writer of a store in. -/
def release (s : Engine α) (store : Nat) : Engine α :=
  s.updateStore store fun st => { st with writer := none }

/-- Counts an ended write transaction of a store. -/
def tally (s : Engine α) (store : Nat) : Ending → Engine α
  | .commit => s.updateStore store fun st =>
    { st with stats := { st.stats with commits := st.stats.commits + 1 } }
  | .abort => s.updateStore store fun st =>
    { st with stats := { st.stats with aborts := st.stats.aborts + 1 } }

/-- Commits an active write transaction, up to its deferred jobs. -/
def commitWrites (s : Engine α) (id store : Nat) : Engine α :=
  let (channels, s) := s.publish id
  -- whoever wakes up from here on finds the new root
  let s := channels.foldl fire s
  ((s.mark id .commit).release store).tally store .commit

/-! ## Aborting -/

/-- Aborts an active write transaction. -/
def abortWrites (s : Engine α) (id store : Nat) : Engine α :=
  let s := s.updateTxn id fun t => { t with handles := [], changes := none, deferred := [] }
  ((s.mark id .abort).release store).tally store .abort

/-- Aborts a transaction. A read transaction stays as it is. -/
def abort (s : Engine α) (id : Nat) : Option (Except Error Unit × Engine α) :=
  match s.txns[id]? with
  | none => none
  | some t =>
    match t.ensureActive with
    | .error e => some (.error e, s)
    | .ok () => some (.ok (), if t.write then s.abortWrites id t.store else s)

/-- Drops a transaction: if it may write and is active, it is aborted. -/
def drop (s : Engine α) (id : Nat) : Engine α :=
  match s.txns[id]? with
  | some t => if t.write && t.state = .active then s.abortWrites id t.store else s
  | none => s

/-! ## Deferred jobs -/

/-- Counts the objects of a table in a new read transaction. -/
def countTable (s : Engine α) (store : Nat) (table : String) : Event × Engine α :=
  match s.openRead store with
  | none => (.blocked, s)
  | some (id, s) =>
    match s.run id (TxnM.all table primaryName []) with
    | none => (.blocked, s)
    | some (result, s) => (.counted (result.map (·.objects.length)), s)

/-- Gives a waiting writer its turn: runs an operation in a new write transaction, and
drops it if the operation fails. The answer is the open transaction with what the
operation answered, or why it failed; nothing if another transaction is active. -/
def takeTurn {β : Type} (s : Engine α) (store : Nat) (op : TxnM α β) :
    Option (Except Error (Nat × β) × Engine α) :=
  match s.acquireWrite store with
  | none => none
  | some (id, s) =>
    match s.run id op with
    | none => none
    | some (.error e, s) => some (.error e, s.drop id)
    | some (.ok b, s) => some (.ok (id, b), s)

mutual

/-- Runs a job on a store, and answers with what it leaves behind. -/
def runJob (store : Nat) : Job α → Engine α → List Event × Engine α
  | .note label, s => ([.note label], s)
  | .count table, s =>
    let (event, s) := s.countTable store table
    ([event], s)
  | .all jobs, s => runJobs store jobs s
  | .write writes deferred ending, s =>
    match (s.requestWrite store).takeTurn store (TxnM.writeAll writes) with
    | none => ([.blocked], s)
    | some (.error e, s) => ([.wrote (.error e)], s)
    | some (.ok (id, ()), s) =>
      match ending with
      | .abort => ([.wrote (.ok ())], s.abortWrites id store)
      | .commit =>
        let (events, s) := runDeferred store deferred (s.commitWrites id store)
        (events ++ [.wrote (.ok ())], s)

/-- Runs jobs one after another. -/
def runJobs (store : Nat) : List (Job α) → Engine α → List Event × Engine α
  | [], s => ([], s)
  | job :: jobs, s =>
    let (events, s) := runJob store job s
    let (more, s) := runJobs store jobs s
    (events ++ more, s)

/-- Runs deferred jobs, given in the order of registration: the last one first. -/
def runDeferred (store : Nat) : List (Job α) → Engine α → List Event × Engine α
  | [], s => ([], s)
  | job :: jobs, s =>
    let (events, s) := runDeferred store jobs s
    let (more, s) := runJob store job s
    (events ++ more, s)

end

/-- Commits a transaction and runs its deferred jobs. A read transaction stays as it
is. -/
def commit (s : Engine α) (id : Nat) : Option (Except Error (List Event) × Engine α) :=
  match s.txns[id]? with
  | none => none
  | some t =>
    match t.ensureActive with
    | .error e => some (.error e, s)
    | .ok () =>
      if t.write then
        -- the jobs leave the transaction before they run, so none runs twice
        let s := (s.commitWrites id t.store).updateTxn id fun t => { t with deferred := [] }
        let (events, s) := runDeferred t.store t.deferred s
        some (.ok events, s)
      else some (.ok [], s)

end Engine

end SnapStore
