import SnapStore.Text.Outline
import SnapStore.Text.Span

/-! # Settings and counters of a store -/

namespace SnapStore

/-- What can be chosen when a store is made: whether write transactions log their
changes, after which time a waiting writer is worth a warning, and how many channels a
watch set should hold. -/
structure Settings where
  trackChanges : Bool := true
  writerWaitWarning : Span := .ofMilliseconds 1000
  watchLimit : Nat := 2048
  deriving DecidableEq, Repr

/-- The settings in words. -/
def Settings.describe (s : Settings) : String :=
  Outline.record "Config"
    [("track_changes", Outline.bool s.trackChanges),
      ("writer_wait_warning", s.writerWaitWarning.describe),
      ("watch_limit", toString s.watchLimit)]

/-- How often each thing has happened in a store. The counters have no bound here, while those of a
running store are words of 64 bits that start at zero again behind the greatest one. No operation
looks at them. -/
structure Stats where
  readTxns : Nat := 0
  writeTxns : Nat := 0
  commits : Nat := 0
  aborts : Nat := 0
  inserts : Nat := 0
  deletes : Nat := 0
  lookups : Nat := 0
  iterators : Nat := 0
  deriving DecidableEq, Repr

/-- The counters by name. -/
def Stats.toList (s : Stats) : List (String × Nat) :=
  [("read_txns", s.readTxns), ("write_txns", s.writeTxns), ("commits", s.commits),
    ("aborts", s.aborts), ("inserts", s.inserts), ("deletes", s.deletes),
    ("lookups", s.lookups), ("iterators", s.iterators)]

end SnapStore
