import TransactionalMemory.Clock
import TransactionalMemory.Commit.Basic
import TransactionalMemory.Commit.Notice
import TransactionalMemory.Commit.Signals
import TransactionalMemory.Engine.Basic
import TransactionalMemory.Engine.Hold
import TransactionalMemory.Exit
import TransactionalMemory.Interpreter
import TransactionalMemory.Journal.Basic
import TransactionalMemory.Journal.Entry
import TransactionalMemory.Journal.Publish
import TransactionalMemory.Journal.Watch
import TransactionalMemory.Machine
import TransactionalMemory.Promise
import TransactionalMemory.Proofs.Accounts
import TransactionalMemory.Proofs.AllOrNothing
import TransactionalMemory.Proofs.Alone
import TransactionalMemory.Proofs.Alternatives
import TransactionalMemory.Proofs.Awaiting
import TransactionalMemory.Proofs.Combinators
import TransactionalMemory.Proofs.Completion
import TransactionalMemory.Proofs.Conflict
import TransactionalMemory.Proofs.Conservation
import TransactionalMemory.Proofs.Course
import TransactionalMemory.Proofs.Custody
import TransactionalMemory.Proofs.Declining
import TransactionalMemory.Proofs.Delivery
import TransactionalMemory.Proofs.Diary
import TransactionalMemory.Proofs.Equality
import TransactionalMemory.Proofs.Exclusion
import TransactionalMemory.Proofs.Fallback
import TransactionalMemory.Proofs.Footprint
import TransactionalMemory.Proofs.Fusion
import TransactionalMemory.Proofs.Growth
import TransactionalMemory.Proofs.History
import TransactionalMemory.Proofs.Holds
import TransactionalMemory.Proofs.Interpretation
import TransactionalMemory.Proofs.Journals
import TransactionalMemory.Proofs.LastWrite
import TransactionalMemory.Proofs.Layers
import TransactionalMemory.Proofs.Meaning
import TransactionalMemory.Proofs.Move
import TransactionalMemory.Proofs.Operations
import TransactionalMemory.Proofs.Permits
import TransactionalMemory.Proofs.Pool
import TransactionalMemory.Proofs.Publication
import TransactionalMemory.Proofs.Recovery
import TransactionalMemory.Proofs.Registration
import TransactionalMemory.Proofs.Repetition
import TransactionalMemory.Proofs.Reports
import TransactionalMemory.Proofs.Ringing
import TransactionalMemory.Proofs.Rollback
import TransactionalMemory.Proofs.RoundTrip
import TransactionalMemory.Proofs.Routing
import TransactionalMemory.Proofs.Sequencing
import TransactionalMemory.Proofs.Serializability
import TransactionalMemory.Proofs.Settlement
import TransactionalMemory.Proofs.Site
import TransactionalMemory.Proofs.Snapshot
import TransactionalMemory.Proofs.Stillness
import TransactionalMemory.Proofs.Tenure
import TransactionalMemory.Proofs.Traversal
import TransactionalMemory.Proofs.Turn
import TransactionalMemory.Proofs.TypeSafety
import TransactionalMemory.Proofs.Typing
import TransactionalMemory.Proofs.Usage
import TransactionalMemory.Proofs.Waiting
import TransactionalMemory.Proofs.Wakeup
import TransactionalMemory.Proofs.WellTyped
import TransactionalMemory.Proofs.Writes
import TransactionalMemory.Ref
import TransactionalMemory.Scenario.Build
import TransactionalMemory.Scenario.Clocks
import TransactionalMemory.Scenario.Expr
import TransactionalMemory.Scenario.Form
import TransactionalMemory.Scenario.Inspect
import TransactionalMemory.Scenario.Report
import TransactionalMemory.Scenario.Session.Basic
import TransactionalMemory.Scenario.Session.Run
import TransactionalMemory.Scenario.Session.Step
import TransactionalMemory.Scenario.Val
import TransactionalMemory.Scenario.Workbench
import TransactionalMemory.Scenario.World
import TransactionalMemory.Semaphore
import TransactionalMemory.Serial
import TransactionalMemory.Store
import TransactionalMemory.Tree
import TransactionalMemory.Tx.Basic
import TransactionalMemory.Tx.Recover
import TransactionalMemory.Tx.Sequence
import TransactionalMemory.Ty
import TransactionalMemory.View
