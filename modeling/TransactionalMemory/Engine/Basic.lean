import TransactionalMemory.Commit.Basic
import TransactionalMemory.Tx.Basic

/-! The engine: the cells, the commits on them, and what is woken, scheduled and numbered. -/

namespace TransactionalMemory

/-- What a scheduler does with a task. An immediate one runs it and keeps no count. -/
inductive Mode
  | queue | run | drop | immediate
  deriving DecidableEq

structure Scheduler where
  mode : Mode
  calls : Nat := 0
  tasks : List (List CommitId) := []

structure Engine (β : Type) [Universe β] (Ω : Type) where
  store : Store β := {}
  world : Ω
  commits : Std.ExtTreeMap CommitId (Commit β Ω) := ∅
  schedulers : Std.ExtTreeMap SchedulerId Scheduler := ∅
  wakes : Std.ExtTreeMap WakerId Nat := ∅
  /-- The thread was woken since it last looked. -/
  unparked : Bool := false
  nextFiber : FiberId := ⟨1⟩
  nextCommit : CommitId := ⟨1⟩

namespace Engine

variable {β : Type} [Universe β] {Ω : Type}

def put (e : Engine β Ω) (id : CommitId) (c : Commit β Ω) : Engine β Ω :=
  { e with commits := e.commits.insert id c }

def modify (e : Engine β Ω) (id : CommitId) (f : Commit β Ω → Commit β Ω) : Engine β Ω :=
  { e with commits := e.commits.modify id f }

def freshFiber (e : Engine β Ω) : FiberId × Engine β Ω :=
  (e.nextFiber, { e with nextFiber := e.nextFiber.next })

def commit {E A : Ty β} (e : Engine β Ω) (t : Tx Ω .unit E A) (scheduler : Option SchedulerId) :
    CommitId × Engine β Ω :=
  let (f, e) := e.freshFiber
  (e.nextCommit,
    { e with nextCommit := e.nextCommit.next }.put e.nextCommit
      { tree := t.tree, errorTy := E, valueTy := A, fiber := f, scheduler })

def wake (e : Engine β Ω) : Waker → Engine β Ω
  | .task w => { e with wakes := e.wakes.alter w fun n => some (n.getD 0 + 1) }
  | .thread => { e with unparked := true }

def wake? (e : Engine β Ω) : Option Waker → Engine β Ω
  | some w => e.wake w
  | none => e

def notify (e : Engine β Ω) (id : CommitId) : Engine β Ω :=
  match e.commits[id]? with
  | some c =>
    if c.isAlive then
      let (w, g) := c.signals.notify
      (e.put id { c with signals := g }).wake? w
    else e
  | none => e

def runTask (e : Engine β Ω) (task : List CommitId) : Engine β Ω := task.foldl notify e

def schedule (e : Engine β Ω) (scheduler : Option SchedulerId) (task : List CommitId) :
    Engine β Ω :=
  match scheduler.bind fun s => (e.schedulers[s]?).map (s, ·) with
  | none => e.runTask task
  | some (s, d) =>
    let set d := { e with schedulers := e.schedulers.insert s d }
    let d' := { d with calls := d.calls + 1 }
    match d.mode with
    | .queue => set { d' with tasks := d.tasks ++ [task] }
    | .run => (set d').runTask task
    | .drop => set d'
    | .immediate => e.runTask task

def runTasks (e : Engine β Ω) (s : SchedulerId) : Nat × Engine β Ω :=
  match e.schedulers[s]? with
  | some d =>
    (d.tasks.length,
      d.tasks.foldl runTask { e with schedulers := e.schedulers.insert s { d with tasks := [] } })
  | none => (0, e)

def interrupt (e : Engine β Ω) (id : CommitId) (f : FiberId) : Bool × Engine β Ω × Option Notice :=
  match e.commits[id]? with
  | none => (false, e, none)
  | some c =>
    match c.signals.interrupt with
    | none => (false, e, none)
    | some (w, g) => (true, (e.put id { c with signals := g }).wake? w, some (.interruptRequested f))

def drop (e : Engine β Ω) (id : CommitId) : Engine β Ω :=
  match e.commits[id]? with
  | some c =>
    let (c, s) := c.drop e.store
    { e with store := s }.put id c
  | none => e

/-- Begins to poll a commit. A commit that has completed is not run again. -/
def poll (e : Engine β Ω) (id : CommitId) (w : Waker) : Engine β Ω :=
  e.modify id fun c =>
    if c.completed then
      c.answer (.ready (.error (.halt (.message "commit polled after completion"))))
    else c.goto (.poll w) .top

def runSync (e : Engine β Ω) (id : CommitId) : Engine β Ω :=
  e.modify id fun c => c.goto .sync .starting

def answer? (e : Engine β Ω) (id : CommitId) : Option (Answer β) :=
  match e.commits[id]? with
  | some c =>
    match c.phase with
    | .answered a => some a
    | _ => none
  | none => none

def settle (e : Engine β Ω) (id : CommitId) : Engine β Ω :=
  e.modify id fun c => { c with phase := .idle }

def advance (e : Engine β Ω) (id : CommitId) : Engine β Ω × Option Notice :=
  match e.commits[id]? with
  | none => (e, none)
  | some c =>
    match c.phase with
    | .busy call p =>
      let t := c.run id call e.store e.world p
      let e := { e with store := t.store, world := t.world }.put id t.commit
      (if t.woken = [] then e else e.schedule c.scheduler t.woken, t.notice)
    | _ => (e, none)

end Engine
end TransactionalMemory
