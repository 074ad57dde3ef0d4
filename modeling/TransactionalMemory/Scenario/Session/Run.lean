import TransactionalMemory.Scenario.Session.Step

namespace TransactionalMemory.Scenario.Session

def reentrance : Panic :=
  .text "cannot execute `LocalPool` executor from within another executor: EnterError"

mutual

def nest (fuel : Nat) (who : String) (steps : List Step) : SessionM Unit :=
  match fuel with
  | 0 => pure ()
  | fuel + 1 => do
    for step in steps do
      let r ← run fuel step
      modify fun s => { s with nested := (who, r) :: s.nested }

def tell (fuel : Nat) (n : Notice) : SessionM Unit :=
  match fuel with
  | 0 => pure ()
  | fuel + 1 => do
    modify fun s => { s with log := n.line :: s.log }
    for h in ← hear n.line do
      nest fuel h.on h.steps

/-- Runs the steps that user code has asked for. -/
def serve (fuel : Nat) : SessionM Unit :=
  match fuel with
  | 0 => pure ()
  | fuel + 1 => do
    let requests := (← get).engine.world.requests
    unless requests.isEmpty do
      modifyEngine fun e => { e with world := { e.world with requests := [] } }
      for r in requests do
        nest fuel r.who r.steps

/-- Gives a commit its turns until the call has its answer. -/
def drive (fuel : Nat) (id : CommitId) : SessionM Unit :=
  match fuel with
  | 0 => pure ()
  | fuel + 1 => do
    if ((← get).engine.answer? id).isNone then
      match ← engineM fun e => let (e, n) := e.advance id; (n, e) with
      | some n => tell fuel n
      | none => pure ()
      serve fuel
      drive fuel id

def driveHold (fuel : Nat) (h : Hold Base) : SessionM (Hold Base) :=
  match fuel with
  | 0 => pure h
  | fuel + 1 => do
    if h.answer.isSome then return h
    else
      match h.running? (← get).engine with
      | some c =>
        drive fuel c
        driveHold fuel h
      | none =>
        let (h, n) ← modifyGet fun s =>
          let (h, gates, e, n) := h.advance s.gates s.engine
          ((h, n), { s with gates, engine := e })
        match n with
        | some n => tell fuel n
        | none => pure ()
        driveHold fuel h

def driveTrial (fuel : Nat) (f : FiberId) (x : Interpreter Base World) :
    SessionM (Interpreter Base World) :=
  match fuel with
  | 0 => pure x
  | fuel + 1 => do
    if x.outcome?.isSome then return x
    else
      let x ← modifyGet fun s =>
        let (x, store, world, shots) := x.step f s.engine.store s.engine.world s.shots
        (x, { s with shots, engine := { s.engine with store, world } })
      serve fuel
      driveTrial fuel f x

def block (fuel : Nat) (id : CommitId) : SessionM (Option (Answer Base)) :=
  match fuel with
  | 0 => pure none
  | fuel + 1 => do
    modifyEngine (·.poll id .thread)
    drive fuel id
    match ← take id with
    | some .pending =>
      if (← get).engine.unparked then
        modifyEngine fun e => { e with unparked := false }
        block fuel id
      else return none
    | a => return a

def wait (fuel : Nat) (id : CommitId) : SessionM Reply :=
  match fuel with
  | 0 => pure .blocked
  | fuel + 1 => do
    if (← get).blocking then
      modifyEngine (·.drop id)
      return .panic reentrance
    else
      modify fun s => { s with blocking := true }
      let a ← block fuel id
      modifyEngine (·.drop id)
      modify fun s => { s with blocking := false }
      return replyOf a

def runSync (fuel : Nat) (id : CommitId) : SessionM Reply :=
  match fuel with
  | 0 => pure .blocked
  | fuel + 1 => do
    modifyEngine (·.runSync id)
    drive fuel id
    return replyOf (← take id)

def abandon (fuel : Nat) (h : Option (Hold Base)) : SessionM Reply :=
  match fuel with
  | 0 => pure .blocked
  | fuel + 1 => do
    match h with
    | none => return .gone
    | some h =>
      let h ← engineM h.drop
      let _ ← driveHold fuel h
      return .null

def hold (fuel : Nat) (id : String) (s : CellId) (n : Nat) (w : Work) : SessionM Reply :=
  match fuel with
  | 0 => pure .blocked
  | fuel + 1 => do
    let old := (← get).holds[id]?
    modify fun x =>
      { x with holds := x.holds.insert id { semaphore := ⟨s⟩, permits := n, work := w } }
    let _ ← abandon fuel old
    return .null

def run (fuel : Nat) (step : Step) : SessionM Reply :=
  match fuel with
  | 0 => pure .blocked
  | fuel + 1 => do
    match step with
    | .new name v => given (Scope.eval {} v) fun v => newCell name ⟨V, v⟩ .ref
    | .makeCommit name v =>
      given (Scope.eval {} v) fun v => do
        let c ← engineM fun e =>
          e.commit (Ref.make v : Tx World .unit (.never : Ty Base) (.ref V)) none
        match ← wait fuel c with
        | .result (.ok r) =>
          bindName name r
          return .null
        | r => return r
    | .semaphore name n =>
      given (Scope.evalAs {} n Val.asSize) fun n => newCell name ⟨.nat, n⟩ .semaphore
    | .promise name =>
      newCell name ⟨.option (.result V V), (none : Option (Except Val Val))⟩ .promise
    | .viewOf name isView base layer => nameView name isView base layer
    | .fiber name => nameFiber name
    | .scheduler name mode => nameScheduler name mode
    | .runTasks name => runTasks name
    | .commit o blocking binding =>
      match ← order o with
      | .error r => return r
      | .ok c =>
        let r ← if blocking then wait fuel c else runSync fuel c
        if let (some name, .result (.ok v)) := (binding, r) then bindName name v
        return r
    | .start id o => start id o
    | .poll id w =>
      match ← handle id with
      | none => return .gone
      | some c =>
        let w ← waker w
        modifyEngine (·.poll c w)
        drive fuel c
        return replyOf (← take c)
    | .runSync id =>
      match ← handle id with
      | none => return .gone
      | some c => runSync fuel c
    | .wait id =>
      match ← handle id with
      | none => return .gone
      | some c => wait fuel c
    | .drop id => drop id
    | .interrupt id =>
      match (← get).started[id]? with
      | none => return .gone
      | some c =>
        let (b, n) ← engineM fun e =>
          let (b, e, n) := e.interrupt c.commit c.interrupter
          ((b, n), e)
        match n with
        | some n => tell fuel n
        | none => pure ()
        return .flag b
    | .setFiber id fiber => setFiber id fiber
    | .trial tx env after publish =>
      match ← code (Form.build {} tx) with
      | .error p => return .buildPanic p
      | .ok t =>
        given (env.mapM (Scope.eval {})) fun env => do
          let f ← engineM (·.freshFiber)
          let env : Any Base := match env with
            | some v => ⟨V, v⟩
            | none => .unit
          let p ← modifyGet fun s => (s.shots.next, { s with shots := s.shots.build })
          let x ← driveTrial fuel f (.start t.tree p env {})
          let exit := exitOf ((x.outcome?.getD .retry).conform V V)
          let journal ← viewJournal x.journal
          let later ← match after with
            | none => pure none
            | some steps =>
              nest fuel "then" steps
              some <$> viewJournal x.journal
          let published ← if publish then some <$> publishTrial x.journal else pure none
          return .trial { exit, journal, later, published }
    | .snapshot name => snapshot name
    | .distinct names => distinct names
    | .showCommit id => showCommit id
    | .showName name => given (Scope.eval {} (.bound name)) fun v => return .lines [some (describe v)]
    | .showGlobals => return .lines [some "Runtime \x7b .. \x7d", some "Immediate"]
    | .holdGate id s n g =>
      given (demand s n) fun (s, n) => do hold fuel id s n (.gate (← gate g))
    | .holdCommit id s n o =>
      given (demand s n) fun (s, n) => do
        match ← order o with
        | .error r => return r
        | .ok c => hold fuel id s n (.commit c)
    | .holdPoll id w =>
      match (← get).holds[id]? with
      | none => return .gone
      | some h =>
        modify fun s => { s with holds := s.holds.erase id }
        let h ← driveHold fuel (h.poll (← waker w))
        if let some .pending := h.answer then
          modify fun s => { s with holds := s.holds.insert id h }
        return holdReply h.answer
    | .holdDrop id =>
      let h := (← get).holds[id]?
      modify fun s => { s with holds := s.holds.erase id }
      abandon fuel h
    | .openGate g v => openGate g v

end

def report (s : Session) (reply : Reply) : Report where
  reply
  names := s.engine.world.names.toList.map fun (n, v) => (n, shownOf s.engine.store v)
  commits := s.started.toList.map fun (n, c) =>
    match s.engine.commits[c.commit]? with
    | some r => (n, r.signals.state, r.held)
    | none => (n, .done, false)
  wakes := s.wakers.toList.map fun (n, w) => (n, (s.engine.wakes[w]?).getD 0)
  schedulers := s.schedulers.toList.map fun (n, d) =>
    match s.engine.schedulers[d]? with
    | some d => (n, d.calls, d.tasks.length)
    | none => (n, 0, 0)
  counters := s.engine.world.counters.toList
  nested := s.nested.reverse
  log := s.log.reverse

def runAll (fuel : Nat) : List Step → Session → List Report
  | [], _ => []
  | step :: steps, s =>
    let (r, s) := (run fuel step).run { s with log := [], nested := [] }
    s.report r :: runAll fuel steps s

/-- More turns than any scenario takes that comes to an end. -/
def patience : Nat := 1000000000000000

def reports (hooks : List Hook) (steps : List Step) : List Report :=
  runAll patience steps { hooks }

end TransactionalMemory.Scenario.Session
