import TransactionalMemory.Machine

/-! Trees run with what is there once in them. A value or a continuation that is there once is gone when it
has been used, for this run and for every other one that comes by the same node. -/

namespace TransactionalMemory

/-- Where a node is: in which of the trees that have been built, and how it is reached from the root. Trees
that are handed in show no node that is there once, so all such nodes of a tree that a continuation gives
have been made by that call, and are the nodes of a tree of their own. -/
structure Place where
  build : Nat
  path : List Bool := []
  deriving DecidableEq

namespace Place

def inner (p : Place) : Place := { p with path := false :: p.path }

def right (p : Place) : Place := { p with path := true :: p.path }

end Place

/-- How many trees have been built, and at which places nothing is left. -/
structure Shots where
  builds : Nat := 0
  spent : List Place := []

namespace Shots

def next (n : Shots) : Place := ⟨n.builds, []⟩

def build (n : Shots) : Shots := { n with builds := n.builds + 1 }

def spend (n : Shots) (p : Place) : Shots := { n with spent := p :: n.spent }

end Shots

namespace Interpreter

inductive Frame (β : Type) [Universe β] (Ω : Type)
  /-- With the place of a continuation that is there once. -/
  | onSuccess (shot : Option Place) (k : Ω → Any β → Tree β Ω)
  | onFailure (k : Ω → Any β → Tree β Ω)
  | onRetry (k : Ω → Tree β Ω)
  | orElse (saved : Checkpoint β) (r : Tree β Ω) (p : Place)
  /-- The environment to go back to waits on a stack of its own. -/
  | restoreEnv

inductive Focus (β : Type) [Universe β] (Ω : Type)
  | run (t : Tree β Ω) (p : Place)
  | exit (o : Outcome β)

end Interpreter

structure Interpreter (β : Type) [Universe β] (Ω : Type) where
  focus : Interpreter.Focus β Ω
  env : Any β
  saved : List (Any β) := []
  frames : List (Interpreter.Frame β Ω) := []
  journal : Journal β := {}

namespace Interpreter

variable {β : Type} [Universe β] {Ω : Type}

def start (t : Tree β Ω) (p : Place) (env : Any β) (j : Journal β) : Interpreter β Ω :=
  { focus := .run t p, env, journal := j }

def outcome? (x : Interpreter β Ω) : Option (Outcome β) :=
  match x.focus, x.frames with
  | .exit (.halt d), _ => some (.halt d)
  | .exit (.interrupt f), _ => some (.interrupt f)
  | .exit o, [] => some o
  | _, _ => none

def resumedTwice : Outcome β := .halt (.message "one-shot transaction state resumed twice")

def push (x : Interpreter β Ω) (g : Frame β Ω) (t : Tree β Ω) (p : Place) : Interpreter β Ω :=
  { x with focus := .run t p, frames := g :: x.frames }

/-- Runs a tree that has been built just now. -/
def resume (x : Interpreter β Ω) (t : Tree β Ω) (n : Shots) : Interpreter β Ω × Shots :=
  ({ x with focus := .run t n.next }, n.build)

def restoreEnv (x : Interpreter β Ω) : Interpreter β Ω :=
  match x.saved with
  | env :: saved => { x with env, saved }
  | [] => x

def enter (x : Interpreter β Ω) (f : FiberId) (s : Store β) (ω : Ω) (n : Shots) (p : Place) :
    Tree β Ω → Interpreter β Ω × Store β × Ω × Shots
  | .effect g => let (r, ω') := g ω f x.env; ({ x with focus := .exit (Machine.caught r) }, s, ω', n)
  | .touch c g =>
    let (o, j) := x.journal.touch s c fun v => g v ω
    ({ x with focus := .exit o, journal := j }, s, ω, n)
  | .make v answer =>
    let (c, s') := s.alloc v
    ({ x with focus := .exit (.success (answer c)), journal := x.journal.insertNew s' c }, s', ω, n)
  | .crash q => ({ x with focus := .exit (.halt (.ofPanic q)) }, s, ω, n)
  | .once v =>
    if p ∈ n.spent then ({ x with focus := .exit resumedTwice }, s, ω, n)
    else ({ x with focus := .exit (.success v) }, s, ω, n.spend p)
  | .onSuccess t k => (x.push (.onSuccess none k) t p.inner, s, ω, n)
  | .onSuccessOnce t k => (x.push (.onSuccess (some p) k) t p.inner, s, ω, n)
  | .onFailure t k => (x.push (.onFailure k) t p.inner, s, ω, n)
  | .onRetry t k => (x.push (.onRetry k) t p.inner, s, ω, n)
  | .orElse l r => (x.push (.orElse x.journal.checkpoint r p.right) l p.inner, s, ω, n)
  | .provide t g =>
    match g x.env ω with
    | .ok (.ok env) => ({ x with env, saved := x.env :: x.saved }.push .restoreEnv t p.inner, s, ω, n)
    | .ok (.error d) => ({ x with focus := .exit (.halt d) }, s, ω, n)
    | .error q => ({ x with focus := .exit (.halt (.ofPanic q)) }, s, ω, n)
  | .loop t judge => (x.push (.onSuccess none (.again t judge)) t p.inner, s, ω, n)

def unwind (x : Interpreter β Ω) (ω : Ω) (n : Shots) :
    Outcome β → List (Frame β Ω) → Interpreter β Ω × Shots
  | .success v, .onSuccess none k :: fs => { x with frames := fs }.resume (k ω v) n
  | .success v, .onSuccess (some p) k :: fs =>
    if p ∈ n.spent then ({ x with focus := .exit resumedTwice, frames := fs }, n)
    else { x with frames := fs }.resume (k ω v) (n.spend p)
  | .failure e, .onFailure k :: fs => { x with frames := fs }.resume (k ω e) n
  | .retry, .onRetry k :: fs => { x with frames := fs }.resume (k ω) n
  | .retry, .orElse saved r p :: fs =>
    ({ x with focus := .run r p, frames := fs, journal := x.journal.rollback saved }, n)
  | o, .restoreEnv :: fs => ({ x.restoreEnv with focus := .exit o, frames := fs }, n)
  | o, _ :: fs => ({ x with focus := .exit o, frames := fs }, n)
  | o, [] => ({ x with focus := .exit o }, n)

def step (x : Interpreter β Ω) (f : FiberId) (s : Store β) (ω : Ω) (n : Shots) :
    Interpreter β Ω × Store β × Ω × Shots :=
  match x.focus with
  | .run t p => x.enter f s ω n p t
  | .exit o => let (y, n) := x.unwind ω n o x.frames; (y, s, ω, n)

end Interpreter
end TransactionalMemory
