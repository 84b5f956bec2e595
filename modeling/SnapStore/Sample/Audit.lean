import SnapStore.Sample.Operations

/-! # Audits

Readers check that what they read is consistent, while a writer replaces one person after
another. A check reads one snapshot, and in it two indexes have to hold equally many people. Each
step of a party stands for itself, and the steps of different parties may come in any order. When
all readers have made their checks, the writer is told to stop.
-/

namespace SnapStore

/-- How far the writer is with the person that it replaces. -/
inductive Replacing where
  /-- It has not begun. -/
  | idle
  /-- It has asked for a write transaction. -/
  | waiting
  /-- It has got a write transaction, and the person is still to be deleted. -/
  | deleting (id : Nat)
  /-- The person is to be stored again. -/
  | inserting (id : Nat)
  /-- The person is stored again. -/
  | committing (id : Nat)

/-- How far a reader is with its check. -/
inductive Checking where
  /-- It has not begun. -/
  | idle
  /-- It has got a read transaction, and its person is still to be looked up. -/
  | opened (id : Nat)
  /-- It has looked its person up. -/
  | found (id : Nat)
  /-- It has counted so many people by identifier. -/
  | counted (id : Nat) (people : Nat)

/-- A reader: the positions of its checks, from the one it is at, and how far it is with that. -/
structure Checker where
  positions : List Nat
  stage : Checking := .idle

/-- A writer that has replaced so many people, the readers beside it, the engine they share, and
the count of the checks that have ended. -/
structure Audit where
  engine : Engine Person
  replaced : Nat := 0
  stage : Replacing := .idle
  stopped : Bool := false
  checkers : List Checker
  tally : Tally := {}

/-- Who makes a step: the writer, one of the readers, or whoever waits for all readers to end. -/
inductive Party where
  | writer
  | checker (k : Nat)
  | main
  deriving DecidableEq

namespace Audit

/-- The parties before their first step. -/
def start (config : WorkloadConfig) (s : Engine Person) : Audit where
  engine := s
  checkers := (List.range config.threads).map fun t =>
    { positions := (List.range (Workload.perThread config)).map fun i =>
        t * Workload.perThread config + i }

/-! ## The writer -/

/-- The writer goes on with its person. -/
def proceed (a : Audit) (stage : Replacing) (s : Engine Person) : Audit :=
  { a with engine := s, stage := stage }

/-- The writer is through with its person, and goes on to the next one. -/
def replacedOne (a : Audit) (s : Engine Person) : Audit :=
  { a with engine := s, stage := .idle, replaced := a.replaced + 1 }

/-- The writer writes and goes on. If it cannot write, it drops its transaction. -/
def write (a : Audit) (id : Nat) (w : Write Person) (next : Replacing) : Option Audit :=
  match a.engine.run id (TxnM.write w) with
  | none => none
  | some (.ok (), s) => some (a.proceed next s)
  | some (.error _, s) => some (a.replacedOne (s.drop id))

/-- The next step of the writer. There is none if it has to wait or has stopped. -/
def replace (store : Nat) (config : WorkloadConfig) (a : Audit) : Option Audit :=
  let person := Workload.personAt config a.replaced
  match a.stage with
  | .idle => if a.stopped then none else some (a.proceed .waiting (a.engine.requestWrite store))
  | .waiting =>
    match a.engine.acquireWrite store with
    | none => none
    | some (id, s) => some (a.proceed (.deleting id) s)
  | .deleting id =>
    a.write id (.deleteAll Person.people primaryName [.uuid person.id]) (.inserting id)
  | .inserting id => a.write id (.insert Person.people person) (.committing id)
  | .committing id =>
    match a.engine.commit id with
    | none => none
    | some (.ok _, s) => some (a.replacedOne s)
    | some (.error _, s) => some (a.replacedOne (s.drop id))

/-! ## The readers -/

/-- A reader goes on with its check. -/
def goOn (a : Audit) (k : Nat) (r : Checker) (s : Engine Person) : Audit :=
  { a with engine := s, checkers := a.checkers.set k r }

/-- A reader has ended its check, and goes on to the next one. -/
def finish (a : Audit) (k : Nat) (positions : List Nat) (succeeded : Bool) (s : Engine Person) :
    Audit :=
  { a with
    engine := s
    checkers := a.checkers.set k { positions := positions }
    tally := a.tally.count succeeded }

/-- A reader reads and goes on. If it cannot read, its check has failed. -/
def read {β : Type} (a : Audit) (k : Nat) (positions : List Nat) (id : Nat) (op : TxnM Person β)
    (next : β → Engine Person → Audit) : Option Audit :=
  match a.engine.run id op with
  | none => none
  | some (.ok answer, s) => some (next answer s)
  | some (.error _, s) => some (a.finish k positions false s)

/-- The next step of a reader. There is none if it has ended its last check. -/
def check (store : Nat) (config : WorkloadConfig) (a : Audit) (k : Nat) : Option Audit :=
  match a.checkers[k]? with
  | some ⟨i :: positions, .idle⟩ =>
    match a.engine.openRead store with
    | none => none
    | some (id, s) => some (a.goOn k ⟨i :: positions, .opened id⟩ s)
  | some ⟨i :: positions, .opened id⟩ =>
    a.read k positions id
      (TxnM.first Person.people primaryName [.uuid (Workload.personAt config i).id])
      fun _ s => a.goOn k ⟨i :: positions, .found id⟩ s
  | some ⟨i :: positions, .found id⟩ =>
    a.read k positions id (TxnM.all Person.people primaryName [])
      fun byId s => a.goOn k ⟨i :: positions, .counted id byId.objects.length⟩ s
  | some ⟨_ :: positions, .counted id people⟩ =>
    a.read k positions id (TxnM.all Person.people "email" [])
      fun byEmail s => a.finish k positions (people == byEmail.objects.length) s
  | _ => none

/-! ## All parties -/

/-- The next step of a party. -/
def step (store : Nat) (config : WorkloadConfig) (a : Audit) : Party → Option Audit
  | .writer => a.replace store config
  | .checker k => a.check store config k
  | .main =>
    if a.checkers.all (·.positions.isEmpty) then some { a with stopped := true } else none

/-- A party has its turn. If it cannot make a step, nothing happens. -/
def turn (store : Nat) (config : WorkloadConfig) (a : Audit) (p : Party) : Audit :=
  (a.step store config p).getD a

/-- The parties have their turns in the given order. -/
def play (store : Nat) (config : WorkloadConfig) (a : Audit) (order : List Party) : Audit :=
  order.foldl (turn store config) a

/-- An order in which all readers make their checks, and the writer ends what it has begun: round
after round each party has one turn. A check takes four steps. -/
def rounds (config : WorkloadConfig) : List Party :=
  let round := .writer :: (List.range config.threads).map .checker
  (List.replicate (4 * Workload.perThread config) round).flatten ++
    .main :: List.replicate 4 .writer

end Audit

end SnapStore
