import SnapStore.Sample.Person
import SnapStore.Engine.Ending
import SnapStore.Text.Fixed

/-! # Operations of workloads

A workload drives a store of people and counts which of its operations succeed. Here is what it
may do in one operation, and at which positions its threads begin.
-/

namespace SnapStore

/-- How much a workload does: the number of operations, of threads, of people in a
batch, and of different people. -/
structure WorkloadConfig where
  operations : Nat
  threads : Nat
  batchSize : Nat
  objectCount : Nat
  deriving DecidableEq, Repr

/-- How many operations succeeded, and how many failed. -/
structure Tally where
  successful : Nat := 0
  failed : Nat := 0
  deriving DecidableEq, Repr

namespace Tally

/-- The number of operations. -/
def total (t : Tally) : Nat :=
  t.successful + t.failed

/-- Counts one operation. -/
def count (t : Tally) (succeeded : Bool) : Tally :=
  if succeeded then { t with successful := t.successful + 1 } else { t with failed := t.failed + 1 }

/-- The operations per second, with six decimals. No time counts as no operations. -/
def rate (t : Tally) (duration : Span) : String :=
  let n := duration.nanoseconds
  let seconds := Float.ofNat (n / 1000000000) + Float.ofNat (n % 1000000000) / 1000000000.0
  Fixed.ofFloat 6 (if 0.0 < seconds then Float.ofNat t.total / seconds else 0.0)

end Tally

namespace Workload

/-- One operation of a workload on a store: whether it succeeded, and the engine after
it. -/
abbrev Operation := Engine Person → Bool × Engine Person

/-- Whether everything a job did succeeded. -/
def succeeded (events : List Event) : Bool :=
  events.all fun
    | .note _ => true
    | .counted result => result.toBool
    | .wrote result => result.toBool
    | .blocked => false

/-- Runs a job as an operation. -/
def ofJob (store : Nat) (job : Job Person) : Operation := fun s =>
  let (events, s) := Engine.runJob store job s
  (succeeded events, s)

/-- Runs a query in a new read transaction as an operation. -/
def ofQuery {β : Type} (store : Nat) (query : TxnM Person β) : Operation := fun s =>
  match s.openRead store with
  | none => (false, s)
  | some (id, s) =>
    match s.run id query with
    | none => (false, s)
    | some (result, s) => (result.toBool, s)

/-- Runs operations one after another. -/
def runAll (operations : List Operation) (s : Engine Person) : Tally × Engine Person :=
  operations.foldl
    (fun (tally, s) op =>
      let (ok, s) := op s
      (tally.count ok, s))
    ({}, s)

/-! ## Operations -/

/-- The transaction that stores people and commits. -/
def insertAll (table : String) (people : List Person) : Job Person :=
  .write (people.map (.insert table)) [] .commit

/-- The person whose turn it is at a position. -/
def personAt (config : WorkloadConfig) (position : Nat) : Person :=
  Person.sample (position % max 1 config.objectCount)

/-- The people of a batch that starts at a position. -/
def batch (config : WorkloadConfig) (start : Nat) : List Person :=
  (List.range (max 1 config.batchSize)).map fun j => personAt config (start + j)

/-- Stores a batch. -/
def writeBatch (store : Nat) (config : WorkloadConfig) (start : Nat) : Operation :=
  ofJob store (insertAll Person.people (batch config start))

/-- Looks one person up by identifier. -/
def readOne (store : Nat) (config : WorkloadConfig) (i : Nat) : Operation :=
  ofQuery store (TxnM.first Person.people primaryName [.uuid (personAt config i).id])

/-- Stores a person, looks people up by name, or deletes a person, in turns. -/
def mixedOperation (store : Nat) (config : WorkloadConfig) (i : Nat) : Operation :=
  let person := personAt config i
  match i % 3 with
  | 0 => ofJob store (insertAll Person.people [person])
  | 1 => ofQuery store (TxnM.all Person.people "name" [.text person.name])
  | _ => ofJob store (.write [.deleteAll Person.people primaryName [.uuid person.id]] [] .commit)

/-- The number of operations of each thread. -/
def perThread (config : WorkloadConfig) : Nat :=
  config.operations / max 1 config.threads

/-- The positions at which the threads' operations start, thread by thread. -/
def threadPositions (config : WorkloadConfig) : List Nat :=
  (List.range config.threads).flatMap fun t =>
    (List.range (perThread config)).map fun i => t * perThread config + i

end Workload

end SnapStore
