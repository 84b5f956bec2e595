import SnapStore.Index.Arg
import SnapStore.Error

/-! # Writes and jobs as data

A write is one change a transaction makes. A job is work deferred to the time after a
commit: it may leave notes, count tables, and run write transactions of its own, which
may defer further jobs.
-/

namespace SnapStore

universe u

variable {α : Type u}

/-- One change a write transaction makes. -/
inductive Write (α : Type u) where
  | insert (table : String) (object : α)
  | delete (table : String) (object : α)
  | deleteStem (table index : String) (args : List Arg)
  | deleteAll (table index : String) (args : List Arg)

/-- Work deferred to the time after a commit. -/
inductive Job (α : Type u) where
  /-- Leaves a note. -/
  | note (label : String)
  /-- Counts the objects of a table in a read transaction. -/
  | count (table : String)
  /-- Runs a write transaction, which ends as told if all its writes succeed, and is
  dropped otherwise. -/
  | write (writes : List (Write α)) (deferred : List (Job α)) (ending : Ending)
  /-- Runs jobs one after another. -/
  | all (jobs : List (Job α))

/-- What a job leaves behind. -/
inductive Event where
  | note (label : String)
  | counted (result : Except Error Nat)
  | wrote (result : Except Error Unit)
  /-- A write transaction could not be opened, since another one was active. -/
  | blocked

end SnapStore
