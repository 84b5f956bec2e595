import SnapStore.Sample.Workload

/-! # Threads

The threads of a workload that stores people share a store and its writer lock. Here each step
of a thread stands for itself, and the steps of different threads may come in any order. For
each of its batches a thread asks for a write transaction, waits for its turn, stores the people
one after another, and commits. Only the wait for its turn can hold it up.
-/

namespace SnapStore

/-- How far a thread is with its batch. -/
inductive Progress where
  /-- It has not begun. -/
  | idle
  /-- It has asked for a write transaction. -/
  | waiting
  /-- It has got a write transaction, and these people are still to be stored. -/
  | writing (id : Nat) (rest : List Person)

/-- A thread: where its batches start, from the one it is at, and how far it is with that. -/
structure Thread where
  starts : List Nat
  stage : Progress := .idle

/-- Threads, the engine they share, and the count of the batches that have ended. -/
structure Crew where
  engine : Engine Person
  threads : List Thread
  tally : Tally := {}

namespace Crew

/-- The threads of a workload before their first step. -/
def start (config : WorkloadConfig) (s : Engine Person) : Crew where
  engine := s
  threads := (List.range config.threads).map fun t =>
    { starts := (List.range (Workload.perThread config)).map fun i =>
        (t * Workload.perThread config + i) * config.batchSize }

/-- A thread goes on with its batch. -/
def goOn (c : Crew) (k : Nat) (th : Thread) (s : Engine Person) : Crew :=
  { c with engine := s, threads := c.threads.set k th }

/-- A thread has ended its batch, and goes on to the next one. -/
def finish (c : Crew) (k : Nat) (starts : List Nat) (succeeded : Bool) (s : Engine Person) :
    Crew where
  engine := s
  threads := c.threads.set k { starts := starts }
  tally := c.tally.count succeeded

/-- The next step of a thread. There is none if it has ended its last batch or has to wait. -/
def step (store : Nat) (config : WorkloadConfig) (c : Crew) (k : Nat) : Option Crew :=
  match c.threads[k]? with
  | some ⟨start :: starts, .idle⟩ =>
    some (c.goOn k ⟨start :: starts, .waiting⟩ (c.engine.requestWrite store))
  | some ⟨start :: starts, .waiting⟩ =>
    match c.engine.acquireWrite store with
    | none => none
    | some (id, s) =>
      some (c.goOn k ⟨start :: starts, .writing id (Workload.batch config start)⟩ s)
  | some ⟨start :: starts, .writing id (person :: rest)⟩ =>
    match c.engine.run id (TxnM.insert Person.people person) with
    | none => none
    | some (.ok (), s) => some (c.goOn k ⟨start :: starts, .writing id rest⟩ s)
    | some (.error _, s) => some (c.finish k starts false (s.drop id))
  | some ⟨_ :: starts, .writing id []⟩ =>
    match c.engine.commit id with
    | none => none
    | some (.ok _, s) => some (c.finish k starts true s)
    | some (.error _, s) => some (c.finish k starts false (s.drop id))
  | _ => none

/-- The steps of threads in the given order, unless one of them cannot be made. -/
def run (store : Nat) (config : WorkloadConfig) (c : Crew) (order : List Nat) : Option Crew :=
  order.foldlM (step store config) c

end Crew

end SnapStore
