import TransactionalMemory.Promise
import TransactionalMemory.Scenario.World
import TransactionalMemory.Semaphore
import TransactionalMemory.Tx.Recover
import TransactionalMemory.Tx.Sequence

namespace TransactionalMemory.Scenario

namespace Program

variable {A : Ty Base}

def present (t : Tx World V V A) (f : A.El → Val) : Program := t.map fun a => pure (f a)

def showUnit (t : Tx World V V (.unit : Ty Base)) : Program := present t fun _ => .unit

def showBool (t : Tx World V V (.bool : Ty Base)) : Program := present t fun (b : Bool) => .bool b

def showNat (t : Tx World V V (.nat : Ty Base)) : Program := present t fun (n : Nat) => .int n

def showList (t : Tx World V V (.list V)) : Program := present t fun (l : List Val) => .list l

def showResult (t : Tx World V V (.result V V)) : Program :=
  present t fun (r : Except Val Val) => .ofExcept r

def asOption (t : Program) : Tx World V V (.option V) :=
  t.map fun v => (show Code World (Option Val) from fun _ => Val.asOption "option" v)

end Program

def defectOf : Val → Defect
  | .text s => .message s
  | v => .panic v.json

def RefOp.apply (op : RefOp) (r : Ref V) (f : Val → Code World Val) : Program :=
  let pair (v : Val) : Code World (Val × Val) := do (← f v).asPair "pair"
  let option (v : Val) : Code World (Option Val) := do (← f v).asOption "option"
  match op with
  | modify => r.modify pair
  | update => Program.showUnit (r.update f)
  | getAndUpdate => r.getAndUpdate f
  | updateAndGet => r.updateAndGet f
  | updateSome => Program.showUnit (r.updateSome option)
  | getAndUpdateSome => r.getAndUpdateSome option
  | updateSomeAndGet => r.updateSomeAndGet option

namespace Form

open Program

def lensOf (name : String) : Code World ViewForm.Lens := fun w =>
  match w.views[name]? with
  | some v => pure v.lens
  | none => Eval.panic ("unbound view: " ++ name)

def promiseOf (σ : Scope) (p : Expr) : Code World (Promise V V) :=
  return ⟨← σ.evalAs p Val.asPromise⟩

def refOf (σ : Scope) (r : Expr) : Code World (Ref V) := return ⟨← σ.evalAs r Val.asRef⟩

def semaphoreOf (σ : Scope) (s : Expr) : Code World Semaphore :=
  return ⟨← σ.evalAs s Val.asSemaphore⟩

/-- Counts one up, and asks for the steps if the count is a due one. -/
def request (counter : String) (nth : Option (List Nat)) (steps : List Step) (w : World) :
    Except Panic Val × World :=
  let (n, w) := w.count counter
  if nth.all (·.contains n) then
    (.ok .unit, { w with requests := w.requests ++ [⟨counter, steps⟩] })
  else (.ok .unit, w)

def bare {E A : Ty Base} (t : Tx World V E A) : Program := ⟨t.tree⟩

mutual

def build (σ : Scope) : Form → Code World Program
  | succeed v => return .succeed (← σ.eval v)
  | succeedWith e => return .succeedWith (σ.eval e)
  | fail v => return .fail (← σ.eval v)
  | failWith e => return .failWith (σ.eval e)
  | halt d => return .halt d
  | retry => return .retry
  | interrupt => return .interrupt
  | environment => return .environment
  | fiberId => return present (A := .fiber) .fiberId fun (f : FiberId) => .fiber f
  | delay t => return .delay (build σ t)
  | asks x e => return .asks fun (r : Val) => (σ.set x r).eval e
  | asksTx x t => return .asksTx fun (r : Val) => build (σ.set x r) t
  | bind t x k => return (← build σ t).bind fun (v : Val) => build (σ.set x v) k
  | recover t x k => return (← build σ t).recover fun (v : Val) => build (σ.set x v) k
  | map t x e => return (← build σ t).map fun (v : Val) => (σ.set x v).eval e
  | mapError t x e => return (← build σ t).mapError fun (v : Val) => (σ.set x v).eval e
  | as t v => do
    let t ← build σ t
    return t.as (← σ.eval v)
  | void t => return showUnit (← build σ t).void
  | optionally t =>
    return present (A := .option V) (← build σ t).optionally fun (v : Option Val) => .ofOption v
  | toResult t => return showResult (← build σ t).toResult
  | orDie t => return (← build σ t).orDie Val.json
  | orDieWith t x e =>
    return (← build σ t).orDieWith fun (v : Val) => defectOf <$> (σ.set x v).eval e
  | orElse l r => return (← build σ l).orElse (← build σ r)
  | orTry l r => return (← build σ l).orTry (← build σ r)
  | orElseEither l r =>
    return present (A := .either V V) ((← build σ l).orElseEither (← build σ r))
      fun
        | Sum.inl (v : Val) => .left v
        | Sum.inr (v : Val) => .right v
  | repeatUntil t x e =>
    return (← build σ t).repeatUntil fun (v : Val) => (σ.set x v).evalAs e (·.asBool "bool")
  | fold t x onFailure onSuccess =>
    return (← build σ t).fold (fun (v : Val) => (σ.set x v).eval onFailure)
      fun (v : Val) => (σ.set x v).eval onSuccess
  | foldTx t x onFailure onSuccess =>
    return (← build σ t).foldTx (fun (v : Val) => build (σ.set x v) onFailure)
      fun (v : Val) => build (σ.set x v) onSuccess
  | zipWith l r x y e =>
    return (← build σ l).zipWith (← build σ r)
      fun (a b : Val) => ((σ.set x a).set y b).eval e
  | zip l r =>
    return present (A := .pair V V) ((← build σ l).zip (← build σ r))
      fun (p : Val × Val) => .pair p.1 p.2
  | zipLeft l r => return (← build σ l).zipLeft (← build σ r)
  | zipRight l r => return (← build σ l).zipRight (← build σ r)
  | onlyIf t c => do
    let t ← build σ t
    return showUnit (t.onlyIf (← σ.evalAs c (·.asBool "bool")))
  | check c => return showUnit (.check (← σ.evalAs c (·.asBool "bool")))
  | checkWith e => return showUnit (.checkWith (σ.evalAs e (·.asBool "bool")))
  | forEach items x t => do
    let vs ← σ.evalAs items (·.asList "items")
    return showList (.forEach vs fun v => build (σ.set x v) t)
  | collect ts => return showList (.collect (← buildList σ ts))
  | provide t env => do
    let t ← build σ t
    return t.provide (← σ.eval env)
  | provideFrom t x e => return (← build σ t).provideFrom fun (r : Val) => (σ.set x r).eval e
  | someOrRetry t => return (asOption (← build σ t)).someOrRetry
  | getOrRetry v => return .getOrRetry (← σ.evalAs v (·.asOption "option"))
  | make v => return present (A := .ref V) (Ref.make (← σ.eval v)) fun (r : Ref V) => .ref r.cell
  | get r => return (← refOf σ r).get
  | set r v => do
    let r ← refOf σ r
    return showUnit (r.set (← σ.eval v))
  | getAndSet r v => do
    let r ← refOf σ r
    return r.getAndSet (← σ.eval v)
  | refOp op r x e => return op.apply (← refOf σ r) fun v => (σ.set x v).eval e
  | modifySome r default x e => do
    let r ← refOf σ r
    let d ← σ.eval default
    return r.modifySome d fun (v : Val) =>
      (show Code World (Option (Val × Val)) from do
        match ← (σ.set x v).evalAs e (·.asOption "option") with
        | some p => some <$> p.asPair "pair"
        | none => pure none)
  | viewGet view => return (← lensOf view).get
  | viewSet view v => do
    let l ← lensOf view
    return showUnit (l.set (← σ.eval v))
  | viewModify view x e =>
    return (← lensOf view).modify fun (v : Val) => (σ.set x v).evalAs e (·.asPair "pair")
  | viewUpdate view x e =>
    return showUnit ((← lensOf view).update fun (v : Val) => (σ.set x v).eval e)
  | makeSemaphore n =>
    return present (A := .semaphore) (Semaphore.make (← σ.evalAs n Val.asSize))
      fun (s : Semaphore) => .semaphore s.cell
  | acquire s n => do
    let s ← semaphoreOf σ s
    return showUnit (s.acquire (← σ.evalAs n Val.asSize))
  | release s n => do
    let s ← semaphoreOf σ s
    return showUnit (s.release (← σ.evalAs n Val.asSize))
  | available s => return showNat (← semaphoreOf σ s).available
  | makePromise =>
    return present (A := .promise V V) Promise.make fun (p : Promise V V) => .promise p.cell
  | await p => return (← promiseOf σ p).await
  | complete p v => do
    let p ← promiseOf σ p
    return showBool (p.complete (← σ.evalAs v (·.asResult "result")))
  | completeWith p v => do
    let p ← promiseOf σ p
    return showBool (p.succeed (← σ.eval v))
  | completeFailing p v => do
    let p ← promiseOf σ p
    return showBool (p.fail (← σ.eval v))
  | poll p =>
    return present (A := .option (.result V V)) (← promiseOf σ p).poll
      fun (r : Option (Except Val Val)) => .ofOption (r.map .ofExcept)
  | nest n start wrap => do
    (List.range n).foldlM
      (fun t (i : Nat) => build { σ.set "i" (.int i) with hole := some t } wrap) (← build σ start)
  | hole =>
    match σ.hole with
    | some t => pure t
    | none => fun _ => Eval.panic "hole outside of a nest"
  | count c => return .perform fun w => let (n, w) := w.count c; (.ok (.int n), w)
  | inject c nth steps => return .perform (request c nth steps)
  | expose name v => do
    let v ← σ.eval v
    return .perform fun w => (.ok .unit, w.bind name v)
  | bareValue v => do
    let n ← σ.evalAs v (·.asInt "int")
    return bare (.succeed n : Tx World V V (.base .int))
  | bareError v => do
    let n ← σ.evalAs v (·.asInt "int")
    return bare (.fail n : Tx World V (.base .int) V)
  | bareSomeOrRetry v => do
    let n ← σ.evalAs v (·.asInt "int")
    return Tx.someOrRetry ⟨(.succeed n : Tx World V V (.base .int)).tree⟩

def buildList (σ : Scope) : List Form → Code World (List Program)
  | [] => pure []
  | t :: ts => do
    let t ← build σ t
    return t :: (← buildList σ ts)

end

end Form
end TransactionalMemory.Scenario
