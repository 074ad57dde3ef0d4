import TransactionalMemory.Serial

namespace TransactionalMemory

inductive State
  | running | interrupted | done
  deriving DecidableEq

def State.text : State → String
  | running => "Running"
  | interrupted => "Interrupted"
  | done => "Done"

inductive Waker
  | task (w : WakerId)
  | thread
  deriving DecidableEq

structure Signals where
  state : State := .running
  waker : Option Waker := none
  notified : Bool := false
  deriving DecidableEq

namespace Signals

def finish (g : Signals) : Option Signals :=
  if g.state = .running then some { g with state := .done, waker := none } else none

/-- Tells of a change. A commit that has left `running` hears nothing. -/
def notify (g : Signals) : Option Waker × Signals :=
  if g.state = .running then (g.waker, { g with waker := none, notified := true }) else (none, g)

def interrupt (g : Signals) : Option (Option Waker × Signals) :=
  if g.state = .running then some (g.waker, { g with state := .interrupted, waker := none })
  else none

def register (g : Signals) (w : Waker) : Signals := { g with waker := some w }

def hush (g : Signals) : Signals := { g with notified := false }

theorem interrupt_eq_some_iff {g h : Signals} {w : Option Waker} :
    g.interrupt = some (w, h) ↔
      g.state = .running ∧ w = g.waker ∧ h = { g with state := .interrupted, waker := none } := by
  simp [interrupt, eq_comm]

theorem notify_of_ne {g : Signals} (h : g.state ≠ .running) : g.notify = (none, g) := by
  simp [notify, h]

end Signals
end TransactionalMemory
