import TransactionalMemory.Engine.Basic
import TransactionalMemory.Scenario.Expr

namespace TransactionalMemory.Scenario

inductive RefOp
  | modify | update | getAndUpdate | updateAndGet
  | updateSome | getAndUpdateSome | updateSomeAndGet
  deriving DecidableEq

inductive LayerKind
  | fold | foldAll | map | mapEither | contramap | contramapEither | dimap | dimapError
  deriving DecidableEq

structure Layer where
  kind : LayerKind
  set : Expr := .var "x"
  get : Expr := .var "x"
  ea : Expr := .var "e"
  eb : Expr := .var "e"
  ec : Expr := .var "e"

/-- What a commit is made of, given what its transaction is made of. -/
structure Order (τ : Type) where
  tx : τ
  env : Option Expr := none
  fiber : Option String := none
  scheduler : Option String := none

mutual

inductive Form
  | succeed (v : Expr)
  | succeedWith (e : Expr)
  | fail (v : Expr)
  | failWith (e : Expr)
  | halt (d : Defect)
  | retry
  | interrupt
  | environment
  | fiberId
  | delay (t : Form)
  | asks (x : String) (e : Expr)
  | asksTx (x : String) (t : Form)
  | bind (t : Form) (x : String) (k : Form)
  | recover (t : Form) (x : String) (k : Form)
  | map (t : Form) (x : String) (e : Expr)
  | mapError (t : Form) (x : String) (e : Expr)
  | as (t : Form) (v : Expr)
  | void (t : Form)
  | optionally (t : Form)
  | toResult (t : Form)
  | orDie (t : Form)
  | orDieWith (t : Form) (x : String) (e : Expr)
  | orElse (l r : Form)
  | orTry (l r : Form)
  | orElseEither (l r : Form)
  | repeatUntil (t : Form) (x : String) (e : Expr)
  | fold (t : Form) (x : String) (onFailure onSuccess : Expr)
  | foldTx (t : Form) (x : String) (onFailure onSuccess : Form)
  | zipWith (l r : Form) (x y : String) (e : Expr)
  | zip (l r : Form)
  | zipLeft (l r : Form)
  | zipRight (l r : Form)
  | onlyIf (t : Form) (c : Expr)
  | check (c : Expr)
  | checkWith (e : Expr)
  | forEach (items : Expr) (x : String) (t : Form)
  | collect (ts : List Form)
  | provide (t : Form) (env : Expr)
  | provideFrom (t : Form) (x : String) (e : Expr)
  | someOrRetry (t : Form)
  | getOrRetry (v : Expr)
  | make (v : Expr)
  | get (r : Expr)
  | set (r v : Expr)
  | getAndSet (r v : Expr)
  | refOp (op : RefOp) (r : Expr) (x : String) (e : Expr)
  | modifySome (r default : Expr) (x : String) (e : Expr)
  | viewGet (view : String)
  | viewSet (view : String) (v : Expr)
  | viewModify (view : String) (x : String) (e : Expr)
  | viewUpdate (view : String) (x : String) (e : Expr)
  | makeSemaphore (n : Expr)
  | acquire (s n : Expr)
  | release (s n : Expr)
  | available (s : Expr)
  | makePromise
  | await (p : Expr)
  | complete (p v : Expr)
  | completeWith (p v : Expr)
  | completeFailing (p v : Expr)
  | poll (p : Expr)
  | nest (n : Nat) (start wrap : Form)
  | hole
  | count (counter : String)
  | inject (counter : String) (nth : Option (List Nat)) (steps : List Step)
  | expose (name : String) (v : Expr)
  | bareValue (v : Expr)
  | bareError (v : Expr)
  | bareSomeOrRetry (v : Expr)

inductive Step
  | new (name : String) (v : Expr)
  | makeCommit (name : String) (v : Expr)
  | semaphore (name : String) (n : Expr)
  | promise (name : String)
  | viewOf (name : String) (isView : Bool) (base : String) (layer : Layer)
  | fiber (name : String)
  | scheduler (name : String) (mode : Mode)
  | runTasks (name : String)
  | commit (order : Order Form) (blocking : Bool) (binding : Option String)
  | start (id : String) (order : Order Form)
  | poll (id waker : String)
  | runSync (id : String)
  | wait (id : String)
  | drop (id : String)
  | interrupt (id : String)
  | setFiber (id fiber : String)
  | trial (tx : Form) (env : Option Expr) (after : Option (List Step)) (publish : Bool)
  | snapshot (name : String)
  | distinct (names : List String)
  | showCommit (id : String)
  | showName (name : String)
  | showGlobals
  | holdGate (id : String) (semaphore n : Expr) (gate : String)
  | holdCommit (id : String) (semaphore n : Expr) (order : Order Form)
  | holdPoll (id waker : String)
  | holdDrop (id : String)
  | openGate (gate : String) (v : Expr)

end

end TransactionalMemory.Scenario
