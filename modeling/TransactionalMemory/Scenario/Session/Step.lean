import TransactionalMemory.Scenario.Session.Basic

namespace TransactionalMemory.Scenario.Session

def given {α : Type} (c : Code World α) (k : α → SessionM Reply) : SessionM Reply := do
  match ← code c with
  | .error p => return .panic p
  | .ok a => k a

def newCell (name : String) (v : Any Base) (f : CellId → Val) : SessionM Reply := do
  bindName name (f (← alloc v))
  return .null

def nameView (name : String) (isView : Bool) (base : String) (layer : Layer) : SessionM Reply :=
  let extended : Code World ViewForm := fun w =>
    if isView then
      match w.views[base]? with
      | some v => pure { v with layers := v.layers ++ [layer] }
      | none => Eval.panic ("unbound view: " ++ base)
    else do
      return ⟨← Scope.evalAs {} (.bound base) Val.asRef w, [layer]⟩
  given extended fun v => do
    modifyEngine fun e => { e with world := { e.world with views := e.world.views.insert name v } }
    return .number v.cell.number

def nameFiber (name : String) : SessionM Reply := do
  let f ← engineM (·.freshFiber)
  modify fun s => { s with fibers := s.fibers.insert name f }
  return .number f.number

def nameScheduler (name : String) (mode : Mode) : SessionM Reply := do
  modify fun s =>
    let id : SchedulerId := ⟨s.engine.schedulers.size⟩
    { s with
      schedulers := s.schedulers.insert name id
      engine.schedulers := s.engine.schedulers.insert id { mode } }
  return .null

def runTasks (name : String) : SessionM Reply := do
  match (← get).schedulers[name]? with
  | some s => return .number (← engineM (·.runTasks s))
  | none => return .gone

/-- Makes a commit under a name. One that was there under that name is given up for good. -/
def start (id : String) (o : Order Form) : SessionM Reply := do
  match ← order o with
  | .error r => return r
  | .ok c =>
    let f ← fiberOf c
    if let some old := (← get).started[id]? then
      modifyEngine fun e => (e.drop old.commit).modify old.commit ({ · with watched := false })
    modifyEngine fun e => e.modify c ({ · with watched := true })
    modify fun s => { s with started := s.started.insert id ⟨c, f⟩ }
    return .number f.number

def drop (id : String) : SessionM Reply := do
  match ← handle id with
  | none => return .gone
  | some c =>
    modifyEngine (·.drop c)
    return .null

def setFiber (id fiber : String) : SessionM Reply := do
  match ← handle id, (← get).fibers[fiber]? with
  | some c, some f =>
    modifyEngine fun e => e.modify c ({ · with fiber := f })
    return .number f.number
  | _, _ => return .gone

def snapshot (name : String) : SessionM Reply :=
  given (Scope.evalAs {} (.bound name) Val.asRef) fun c => do
    match (← get).engine.store.snapshot (⟨c⟩ : Ref V) with
    | .ok v => return .value v
    | .error d => return .defect d

def distinct (names : List String) : SessionM Reply :=
  given (names.mapM fun n => Scope.evalAs {} (.bound n) Val.asRef) fun cs =>
    return .number cs.eraseDups.length

def showCommit (id : String) : SessionM Reply := do
  let s ← get
  let some c := s.started[id]? | return .gone
  let some r := s.engine.commits[c.commit]? | return .gone
  return .lines [some (describeInterrupter c.interrupter r.signals.state),
    (← handle id).map fun _ => describeCommit r.fiber r.signals.state r.suspended.isSome]

def openGate (g : String) (v : Expr) : SessionM Reply :=
  given (Scope.eval {} v) fun v => do
    let g ← gate g
    modify fun s =>
      let (gates, e) := s.engine.openGate s.gates g (.ok ⟨V, v⟩)
      { s with gates, engine := e }
    return .null

def demand (s n : Expr) : Code World (CellId × Nat) :=
  return (← Scope.evalAs {} s Val.asSemaphore, ← Scope.evalAs {} n Val.asSize)

def viewJournal (j : Journal Base) : SessionM JournalView :=
  return .of j (← get).engine.store

/-- Publishes the journal of a trial. Those who are to be woken are named and not woken. -/
def publishTrial (j : Journal Base) : SessionM (Except Refusal (List FiberId) × JournalView) :=
  engineM fun e =>
    match j.publish e.store with
    | .error r => ((.error r, .of j e.store), e)
    | .ok (woken, s, j) => ((.ok woken.keys, .of j s), { e with store := s })

end TransactionalMemory.Scenario.Session
