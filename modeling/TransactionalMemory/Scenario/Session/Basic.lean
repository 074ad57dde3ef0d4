import TransactionalMemory.Engine.Hold
import TransactionalMemory.Interpreter
import TransactionalMemory.Scenario.Build
import TransactionalMemory.Scenario.Report

/-! Sessions: the steps of a scenario on one engine. Steps also run inside other steps, when user
code asks for them or when a hook hears a log line. -/

namespace TransactionalMemory.Scenario

/-- Steps to run when the `nth` line that contains a text is logged. -/
structure Hook where
  on : String
  nth : Nat := 1
  steps : List Step
  seen : Nat := 0

structure Started where
  commit : CommitId
  interrupter : FiberId

abbrev Names (α : Type) := Std.ExtTreeMap String α

structure Session where
  engine : Engine Base World := { world := {} }
  /-- What is left of the nodes of the trees that trials have built. -/
  shots : Shots := {}
  fibers : Names FiberId := ∅
  schedulers : Names SchedulerId := ∅
  wakers : Names WakerId := ∅
  started : Names Started := ∅
  holds : Names (Hold Base) := ∅
  gateIds : Names GateId := ∅
  gates : Hold.Gates Base := ∅
  hooks : List Hook := []
  /-- The thread is blocked on a commit, so it cannot block on another one. -/
  blocking : Bool := false
  log : List String := []
  nested : List (String × Reply) := []

abbrev SessionM := StateM Session

namespace Session

def engineM {α : Type} (f : Engine Base World → α × Engine Base World) : SessionM α :=
  modifyGet fun s => let (a, e) := f s.engine; (a, { s with engine := e })

def modifyEngine (f : Engine Base World → Engine Base World) : SessionM Unit :=
  modify fun s => { s with engine := f s.engine }

def code {α : Type} (c : Code World α) : SessionM (Except Panic α) :=
  return c (← get).engine.world

def bindName (name : String) (v : Val) : SessionM Unit :=
  modifyEngine fun e => { e with world := e.world.bind name v }

def alloc (v : Any Base) : SessionM CellId :=
  engineM fun e => let (c, s) := e.store.alloc v; (c, { e with store := s })

def serial {k : Kind} (ns : Names (Serial k)) (name : String) : Serial k × Names (Serial k) :=
  match ns[name]? with
  | some i => (i, ns)
  | none => (⟨ns.size⟩, ns.insert name ⟨ns.size⟩)

def waker (name : String) : SessionM Waker :=
  modifyGet fun s =>
    let (w, ws) := serial s.wakers name
    (.task w, { s with wakers := ws })

def gate (name : String) : SessionM GateId :=
  modifyGet fun s => let (g, gs) := serial s.gateIds name; (g, { s with gateIds := gs })

def handle (id : String) : SessionM (Option CommitId) := do
  let s ← get
  match s.started[id]? with
  | none => return none
  | some c =>
    match s.engine.commits[c.commit]? with
    | some r =>
      match r.held, r.phase with
      | true, .idle => return some c.commit
      | _, _ => return none
    | none => return none

def take (id : CommitId) : SessionM (Option (Answer Base)) :=
  engineM fun e => (e.answer? id, e.settle id)

def hear (line : String) : SessionM (List Hook) :=
  modifyGet fun s =>
    let heard := s.hooks.map fun h =>
      if line.contains h.on then ({ h with seen := h.seen + 1 }, h.seen + 1 == h.nth)
      else (h, false)
    ((heard.filter (·.2)).map (·.1), { s with hooks := heard.map (·.1) })

def build (o : Order Form) : SessionM (Except Reply (Tx World (.unit : Ty Base) V V)) := do
  match ← code (Form.build {} o.tx) with
  | .error p => return .error (.buildPanic p)
  | .ok t =>
    match o.env with
    | none => return .ok (t.provide Val.unit)
    | some e =>
      match ← code (Scope.eval {} e) with
      | .error p => return .error (.panic p)
      | .ok v => return .ok (t.provide v)

def order (o : Order Form) : SessionM (Except Reply CommitId) := do
  match ← build o with
  | .error r => return .error r
  | .ok t =>
    let s ← get
    let scheduler := o.scheduler.bind (s.schedulers[·]?)
    let c ← engineM fun e => e.commit t scheduler
    if let some f := o.fiber.bind (s.fibers[·]?) then
      modifyEngine fun e => e.modify c fun c => { c with fiber := f }
    return .ok c

def fiberOf (c : CommitId) : SessionM FiberId := do
  return (((← get).engine.commits[c]?).map (·.fiber)).getD default

def replyOf : Option (Answer Base) → Reply
  | some .pending => .pending
  | some (.ready r) => .result (resultOf r)
  | some .wouldSuspend => .refusal .wouldSuspend
  | none => .blocked

def holdReply : Option (HoldAnswer Base) → Reply
  | some .pending => .pending
  | some (.refused c) => .result (.error (causeOf c))
  | some (.value v) => .inner (valOf v)
  | some (.panicked p) => .panic p
  | some (.result r) => .innerResult (resultOf r)
  | some .dropped | none => .null

end Session
end TransactionalMemory.Scenario
