import SnapStore.Watch
import SnapStore.Record
import SnapStore.Filter
import SnapStore.Radix.Cursor
import SnapStore.Sample.Workload
import SnapStore.Proofs.Catalog
import SnapStore.Proofs.Radix.Edits
import SnapStore.Proofs.Radix.Map
import SnapStore.Proofs.Radix.Guard
import SnapStore.Proofs.Radix.Refinement
import SnapStore.Proofs.Radix.Lineage
import SnapStore.Proofs.Radix.Exchange
import SnapStore.Proofs.Radix.Replaced
import SnapStore.Proofs.Transaction.Forest
import SnapStore.Proofs.Schema
import SnapStore.Proofs.Transaction.Plans
import SnapStore.Proofs.Transaction.CarryOut
import SnapStore.Proofs.Transaction.Made
import SnapStore.Proofs.Transaction.Evolves
import SnapStore.Proofs.Transaction.Outcome
import SnapStore.Proofs.Transaction.Bulk
import SnapStore.Proofs.Transaction.Contents
import SnapStore.Proofs.Transaction.Ledger
import SnapStore.Proofs.Engine.Actions
import SnapStore.Proofs.Engine.Sound
import SnapStore.Proofs.Engine.Wakeup
import SnapStore.Sample.Page
import SnapStore.Proofs.Engine.History
import SnapStore.Proofs.Engine.Mirror
import SnapStore.Proofs.Engine.Tenure
import SnapStore.Proofs.Engine.Rows
import SnapStore.Proofs.Engine.Jobs
import SnapStore.Proofs.Engine.Atomic
import SnapStore.Proofs.Engine.Step
import SnapStore.Proofs.Transaction.Alike
import SnapStore.Proofs.Engine.Serial
import SnapStore.Proofs.Paths
import SnapStore.Proofs.Engine.Tables
import SnapStore.Proofs.Transaction.Notes
import SnapStore.Proofs.Engine.NetChange
import SnapStore.Proofs.Radix.Bounds
import SnapStore.Proofs.Engine.Current
import SnapStore.Proofs.Engine.View
import SnapStore.Proofs.Engine.Traffic
import SnapStore.Proofs.Engine.Woken
import SnapStore.Proofs.Engine.Silent
import SnapStore.Proofs.Engine.Matches
import SnapStore.Proofs.Index.Encoding
import SnapStore.Proofs.Index.Facets
import SnapStore.Sample.Station
import SnapStore.Proofs.Engine.Ends
import SnapStore.Proofs.Engine.Compounds
import SnapStore.Proofs.Engine.Ranges
import SnapStore.Proofs.Engine.Halves
import SnapStore.Proofs.Engine.Removals
import SnapStore.Proofs.Index.Folding
import SnapStore.Sample.Ship
import SnapStore.Proofs.Engine.Stems
import SnapStore.Proofs.Index.Identifiers
import SnapStore.Proofs.Engine.Identifiers
import SnapStore.Proofs.Radix.Spots
import SnapStore.Proofs.Radix.Cursor
import SnapStore.Proofs.Radix.Canonical
import SnapStore.Proofs.Radix.Touch
import SnapStore.Proofs.Radix.Idle
import SnapStore.Proofs.Radix.Scope
import SnapStore.Proofs.Index.Agreement
import SnapStore.Proofs.Index.Products
import SnapStore.Proofs.Watching
import SnapStore.Proofs.Engine.Deferred
import SnapStore.Proofs.Transaction.Stamps
import SnapStore.Proofs.Engine.Owners
import SnapStore.Proofs.Engine.Sources
import SnapStore.Proofs.Engine.Missed
import SnapStore.Proofs.Engine.Filed
import SnapStore.Proofs.Engine.Bounded
import SnapStore.Proofs.Filtering
import SnapStore.Proofs.Engine.Counters
import SnapStore.Proofs.Engine.Accounts
import SnapStore.Proofs.Engine.Faults
import SnapStore.Proofs.Engine.Declared
import SnapStore.Sample.Threads
import SnapStore.Proofs.Sample.People
import SnapStore.Proofs.Sample.Steps
import SnapStore.Proofs.Sample.Threads
import SnapStore.Proofs.Sample.Orders
import SnapStore.Proofs.Sample.Audits
import SnapStore.Proofs.Radix.Position
import SnapStore.Proofs.Radix.Descent
import SnapStore.Proofs.Radix.Splice
import SnapStore.Proofs.Radix.Invariant
