import TransactionalMemory.Engine.Basic
import TransactionalMemory.Semaphore

namespace TransactionalMemory

/-- What work can wait for, a value or a panic, and who is waiting. -/
structure Gate (β : Type) [Universe β] where
  value : Option (Except Panic (Any β)) := none
  waiting : List Waker := []

inductive Work
  | gate (g : GateId)
  | commit (c : CommitId)
  deriving DecidableEq

inductive HoldAnswer (β : Type) [Universe β]
  | pending
  | refused (c : Cause (Any β))
  | value (v : Any β)
  | panicked (p : Panic)
  | result (r : Result β)
  | dropped

inductive HoldStage (β : Type) [Universe β]
  | fresh
  | acquiring (c : CommitId)
  | holding
  | releasing (c : CommitId) (a : HoldAnswer β)
  | over

structure Hold (β : Type) [Universe β] where
  semaphore : Semaphore
  permits : Nat
  work : Work
  stage : HoldStage β := .fresh
  caller : Waker := .thread
  answer : Option (HoldAnswer β) := none

namespace Defect

def shown : Defect → String
  | panic m => "Panic(" ++ m.quote ++ ")"
  | typeMismatch t => "TypeMismatch(" ++ t.quote ++ ")"
  | message m => "Message(" ++ m.quote ++ ")"

end Defect

namespace Cause

def shown {ε : Type} : Cause ε → String
  | failure _ => "Fail(..)"
  | halt d => "Halt(" ++ d.shown ++ ")"
  | interrupt f => "Interrupt(FiberId(" ++ toString f.number ++ "))"

end Cause

namespace Hold

variable {β : Type} [Universe β] {Ω : Type}

abbrev Gates (β : Type) [Universe β] := Std.ExtTreeMap GateId (Gate β)

def acquisition (h : Hold β) : Tx Ω (.unit : Ty β) .never .unit := h.semaphore.acquire h.permits

def restitution (h : Hold β) : Tx Ω (.unit : Ty β) .never .unit := h.semaphore.release h.permits

def running? (h : Hold β) (e : Engine β Ω) : Option CommitId :=
  let busy c := match (e.commits[c]?).map (·.phase) with
    | some (Phase.busy _ _) => some c
    | _ => none
  match h.stage with
  | .acquiring c | .releasing c _ => busy c
  | .holding =>
    match h.work with
    | .commit c => busy c
    | .gate _ => none
  | .fresh | .over => none

def abandonWork (h : Hold β) (e : Engine β Ω) : Engine β Ω :=
  match h.work with
  | .commit c => e.drop c
  | .gate _ => e

def giveBack (h : Hold β) (e : Engine β Ω) (a : HoldAnswer β) : Hold β × Engine β Ω :=
  let (c, e) := e.commit h.restitution none
  ({ h with stage := .releasing c a }, e.runSync c)

def poll (h : Hold β) (w : Waker) : Hold β := { h with caller := w, answer := none }

def drop (h : Hold β) (e : Engine β Ω) : Hold β × Engine β Ω :=
  let e := h.abandonWork e
  match h.stage with
  | .holding => { h with answer := none }.giveBack e .dropped
  | .acquiring c => ({ h with stage := .over, answer := some .dropped }, e.drop c)
  | _ => ({ h with stage := .over, answer := some .dropped }, e)

def complaint (h : Hold β) : Answer β → Option Notice
  | .ready (.ok _) => none
  | .ready (.error c) => some (.releaseFailed h.permits c.shown)
  | _ => some (.releaseFailed h.permits Refusal.wouldSuspend.message)

def advance (h : Hold β) (gates : Gates β) (e : Engine β Ω) :
    Hold β × Gates β × Engine β Ω × Option Notice :=
  match h.stage with
  | .fresh =>
    let (c, e) := e.commit h.acquisition none
    ({ h with stage := .acquiring c }, gates, e, none)
  | .acquiring c =>
    match e.answer? c with
    | none => (h, gates, e.poll c h.caller, none)
    | some (.ready (.ok _)) => ({ h with stage := .holding }, gates, (e.settle c).drop c, none)
    | some (.ready (.error why)) =>
      ({ h with stage := .over, answer := some (.refused why) }, gates,
        h.abandonWork ((e.settle c).drop c), none)
    | some _ => ({ h with answer := some .pending }, gates, e.settle c, none)
  | .holding =>
    match h.work with
    | .gate g =>
      let gate := (gates[g]?).getD {}
      match gate.value with
      | some (.ok v) =>
        let (h, e) := h.giveBack e (.value v)
        (h, gates, e, none)
      | some (.error p) =>
        let (h, e) := h.giveBack e (.panicked p)
        (h, gates, e, none)
      | none =>
        ({ h with answer := some .pending },
          gates.insert g { gate with waiting := gate.waiting ++ [h.caller] }, e, none)
    | .commit c =>
      match e.answer? c with
      | none => (h, gates, e.poll c h.caller, none)
      | some (.ready r) =>
        let (h, e) := h.giveBack ((e.settle c).drop c) (.result r)
        (h, gates, e, none)
      | some _ => ({ h with answer := some .pending }, gates, e.settle c, none)
  | .releasing c a =>
    match e.answer? c with
    | none => (h, gates, e.runSync c, none)
    | some r =>
      ({ h with stage := .over, answer := some a }, gates, (e.settle c).drop c, h.complaint r)
  | .over => (h, gates, e, none)

end Hold

namespace Engine

variable {β : Type} [Universe β] {Ω : Type}

def openGate (e : Engine β Ω) (gates : Hold.Gates β) (g : GateId)
    (r : Except Panic (Any β)) : Hold.Gates β × Engine β Ω :=
  (gates.insert g { value := some r }, (((gates[g]?).getD {}).waiting).foldl wake e)

end Engine
end TransactionalMemory
