import TransactionalMemory.Commit.Signals
import TransactionalMemory.Journal.Basic
import TransactionalMemory.Scenario.Val

namespace TransactionalMemory.Scenario

structure JournalView where
  size : Nat
  isEmpty : Bool
  analysis : Analysis
  entries : List (CellId × Bool × Bool × Bool)

def JournalView.of (j : Journal Base) (s : Store Base) : JournalView where
  size := j.size
  isEmpty := j.isEmpty
  analysis := j.analyze s
  entries := j.entries.toList.map fun (c, e) => (c, e.created, e.isChanged, e.isValid c s)

/-- One run of a transaction on an empty journal. -/
structure Trial where
  exit : Exit Val Val
  journal : JournalView
  later : Option JournalView
  /-- Who was to be woken by its publication, and the journal after that. -/
  published : Option (Except Refusal (List FiberId) × JournalView)

inductive Reply
  | null
  | gone
  | pending
  | blocked
  | number (n : Nat)
  | flag (b : Bool)
  | value (v : Val)
  | lines (ls : List (Option String))
  | result (r : Except (Cause Val) Val)
  | refusal (r : Refusal)
  | inner (v : Val)
  | innerResult (r : Except (Cause Val) Val)
  | defect (d : Defect)
  | panic (p : Panic)
  | buildPanic (p : Panic)
  | trial (t : Trial)

inductive Shown
  | cell (c : CellId) (v : Val) (waiting : Nat)
  | value (v : Val)

structure Report where
  reply : Reply
  names : List (String × Shown)
  commits : List (String × State × Bool)
  wakes : List (String × Nat)
  schedulers : List (String × Nat × Nat)
  counters : List (String × Nat)
  nested : List (String × Reply)
  log : List String

def valOf (a : Any Base) : Val :=
  match a with
  | ⟨.base .val, v⟩ => v
  | ⟨.nat, n⟩ => .int (show Nat from n)
  | ⟨.option (.result (.base .val) (.base .val)), r⟩ =>
    .ofOption ((show Option (Except Val Val) from r).map .ofExcept)
  | ⟨.ref _, r⟩ => .ref (Ref.cell (show Ref _ from r))
  | _ => .unit

def causeOf : Cause (Any Base) → Cause Val
  | .failure e => .failure (valOf e)
  | .halt d => .halt d
  | .interrupt f => .interrupt f

def resultOf : Result Base → Except (Cause Val) Val
  | .ok a => .ok (valOf a)
  | .error c => .error (causeOf c)

def exitOf : Outcome Base → Exit Val Val
  | .success a => .success (valOf a)
  | .failure e => .failure (valOf e)
  | .halt d => .halt d
  | .interrupt f => .interrupt f
  | .retry => .retry

def shownOf (s : Store Base) (v : Val) : Shown :=
  match v with
  | .ref c | .semaphore c | .promise c => .cell c (valOf (s.value c)) (s.waiting c).size
  | v => .value v

def describe : Val → String
  | .ref c => cell c
  | .semaphore c => "TSemaphore \x7b permits: " ++ cell c ++ " \x7d"
  | .promise c => "TFuture \x7b state: " ++ cell c ++ " \x7d"
  | v => v.json
where
  cell (c : CellId) : String := "Atomic(CellId(" ++ toString c.number ++ "))"

def describeInterrupter (f : FiberId) (s : State) : String :=
  "Interrupter \x7b fiber_id: FiberId(" ++ toString f.number ++ "), state: " ++ s.text ++ " \x7d"

def describeCommit (f : FiberId) (s : State) (suspended : Bool) : String :=
  "Commit \x7b fiber_id: FiberId(" ++ toString f.number ++ "), state: " ++ s.text ++
    ", suspended: " ++ (if suspended then "true" else "false") ++ " \x7d"

end TransactionalMemory.Scenario
