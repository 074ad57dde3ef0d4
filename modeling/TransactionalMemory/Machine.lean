import TransactionalMemory.Tree

/-! The machine that runs trees. It keeps what is left to do on a stack of its own and makes one
small step at a time, so that other transactions can be run between any two steps. -/

namespace TransactionalMemory

inductive Frame (β : Type) [Universe β] (Ω : Type)
  | onSuccess (k : Ω → Any β → Tree β Ω)
  | onFailure (k : Ω → Any β → Tree β Ω)
  | onRetry (k : Ω → Tree β Ω)
  | orElse (saved : Checkpoint β) (r : Tree β Ω)
  | restore (env : Any β)

inductive Focus (β : Type) [Universe β] (Ω : Type)
  | run (t : Tree β Ω)
  | exit (o : Outcome β)

structure Machine (β : Type) [Universe β] (Ω : Type) where
  focus : Focus β Ω
  env : Any β
  frames : List (Frame β Ω) := []
  journal : Journal β := {}

namespace Machine

variable {β : Type} [Universe β] {Ω : Type}

def start (t : Tree β Ω) (env : Any β) : Machine β Ω := { focus := .run t, env }

/-- The outcome of the run, once there is one. A halt or an interrupt passes all frames. -/
def outcome? (m : Machine β Ω) : Option (Outcome β) :=
  match m.focus, m.frames with
  | .exit (.halt d), _ => some (.halt d)
  | .exit (.interrupt f), _ => some (.interrupt f)
  | .exit o, [] => some o
  | _, _ => none

def caught : Except Panic (Outcome β) → Outcome β
  | .ok o => o
  | .error p => .halt (.ofPanic p)

def enter (m : Machine β Ω) (f : FiberId) (s : Store β) (ω : Ω) :
    Tree β Ω → Machine β Ω × Store β × Ω
  | .effect g => let (r, ω') := g ω f m.env; ({ m with focus := .exit (caught r) }, s, ω')
  | .touch c g =>
    let (o, j) := m.journal.touch s c fun v => g v ω
    ({ m with focus := .exit o, journal := j }, s, ω)
  | .make v answer =>
    let (c, s') := s.alloc v
    ({ m with focus := .exit (.success (answer c)), journal := m.journal.insertNew s' c }, s', ω)
  | .crash p => ({ m with focus := .exit (.halt (.ofPanic p)) }, s, ω)
  | .once v => ({ m with focus := .exit (.success v) }, s, ω)
  | .onSuccess t k | .onSuccessOnce t k =>
    ({ m with focus := .run t, frames := .onSuccess k :: m.frames }, s, ω)
  | .onFailure t k => ({ m with focus := .run t, frames := .onFailure k :: m.frames }, s, ω)
  | .onRetry t k => ({ m with focus := .run t, frames := .onRetry k :: m.frames }, s, ω)
  | .orElse l r =>
    ({ m with focus := .run l, frames := .orElse m.journal.checkpoint r :: m.frames }, s, ω)
  | .provide t g =>
    match g m.env ω with
    | .ok (.ok env) => ({ m with focus := .run t, env, frames := .restore m.env :: m.frames }, s, ω)
    | .ok (.error d) => ({ m with focus := .exit (.halt d) }, s, ω)
    | .error p => ({ m with focus := .exit (.halt (.ofPanic p)) }, s, ω)
  | .loop t judge =>
    ({ m with focus := .run t, frames := .onSuccess (.again t judge) :: m.frames }, s, ω)

/-- Hands an outcome to the topmost frame. A frame that has no use for it is dropped. -/
def unwind (m : Machine β Ω) (ω : Ω) : Outcome β → List (Frame β Ω) → Machine β Ω
  | .success v, .onSuccess k :: fs => { m with focus := .run (k ω v), frames := fs }
  | .failure e, .onFailure k :: fs => { m with focus := .run (k ω e), frames := fs }
  | .retry, .onRetry k :: fs => { m with focus := .run (k ω), frames := fs }
  | .retry, .orElse saved r :: fs =>
    { m with focus := .run r, frames := fs, journal := m.journal.rollback saved }
  | o, .restore env :: fs => { m with focus := .exit o, env, frames := fs }
  | o, _ :: fs => { m with focus := .exit o, frames := fs }
  | o, [] => { m with focus := .exit o }

def step (m : Machine β Ω) (f : FiberId) (s : Store β) (ω : Ω) : Machine β Ω × Store β × Ω :=
  match m.focus with
  | .run t => m.enter f s ω t
  | .exit o => (m.unwind ω o m.frames, s, ω)

end Machine
end TransactionalMemory
