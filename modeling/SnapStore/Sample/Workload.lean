import SnapStore.Sample.Audit

/-! # Workloads

What the workloads do. The threads of one that only stores people run here one after another,
which is one of the orders that the writer lock admits. Readers and a writer beside them take
turns.
-/

namespace SnapStore

namespace Workload

/-- Stores all different people first, and goes on only if that succeeds. A failure
counts as the one operation. -/
def afterSetup (store : Nat) (config : WorkloadConfig)
    (go : Engine Person → Tally × Engine Person) (s : Engine Person) : Tally × Engine Person :=
  match ofJob store (insertAll Person.people (Person.samples config.objectCount)) s with
  | (true, s) => go s
  | (false, s) => (({} : Tally).count false, s)

/-- Stores batch after batch. -/
def sequentialWrites (store : Nat) (config : WorkloadConfig) :
    Engine Person → Tally × Engine Person :=
  runAll ((List.range config.operations).map fun i =>
    writeBatch store config (i * config.batchSize))

/-- Looks one person after another up. -/
def sequentialReads (store : Nat) (config : WorkloadConfig) :
    Engine Person → Tally × Engine Person :=
  afterSetup store config
    (runAll ((List.range config.operations).map (readOne store config)))

/-- Stores, finds and deletes people in turns. -/
def mixed (store : Nat) (config : WorkloadConfig) : Engine Person → Tally × Engine Person :=
  runAll ((List.range config.operations).map (mixedOperation store config))

/-- Checks in several threads that what they read is consistent, while a writer replaces one person
after another. Only the checks are counted. -/
def concurrentReads (store : Nat) (config : WorkloadConfig) :
    Engine Person → Tally × Engine Person :=
  afterSetup store config fun s =>
    let a := (Audit.start config s).play store config (Audit.rounds config)
    (a.tally, a.engine)

/-- Stores batches from several threads. -/
def concurrentWrites (store : Nat) (config : WorkloadConfig) :
    Engine Person → Tally × Engine Person :=
  runAll ((threadPositions config).map fun i => writeBatch store config (i * config.batchSize))

end Workload

end SnapStore
