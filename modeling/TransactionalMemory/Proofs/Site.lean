import TransactionalMemory.Engine.Hold
import TransactionalMemory.Proofs.Accounts
import TransactionalMemory.Proofs.Custody

namespace TransactionalMemory

variable {β : Type} [Universe β] {Ω : Type}

def Work.commits : Work → List CommitId
  | gate _ => []
  | commit c => [c]

namespace HoldStage

def isOver : HoldStage β → Bool
  | .over => true
  | _ => false

end HoldStage

/-- A hold, and the commits that it has made to acquire its permits and to give them back. -/
structure Tenure (β : Type) [Universe β] where
  hold : Hold β
  acquisition : Option CommitId := none
  restitution : Option CommitId := none

namespace Tenure

def busy (t : Tenure β) : Bool := t.hold.answer.isNone

def own (t : Tenure β) : List CommitId := t.acquisition.toList ++ t.restitution.toList

def has (t : Tenure β) : List CommitId := t.own ++ t.hold.work.commits

def ledger (t : Tenure β) : Ledger :=
  t.acquisition.toList.map (·, .acquire t.hold.permits) ++
    t.restitution.toList.map (·, .release t.hold.permits)

def become (t : Tenure β) (h : Hold β) : Tenure β where
  hold := h
  acquisition := match h.stage with
    | .acquiring c => some c
    | _ => t.acquisition
  restitution := match h.stage with
    | .releasing c _ => some c
    | _ => t.restitution

def took (t : Tenure β) (e : Engine β Ω) : Bool := t.acquisition.any e.isDone

def permits (t : Tenure β) (e : Engine β Ω) : Nat :=
  if t.took e && !t.hold.stage.isOver then t.hold.permits else 0

end Tenure

/-- Something that is done at a site. What is not done for permits leaves the semaphore alone. -/
inductive Deed (β : Type) [Universe β] (Ω : Type) (sem : Semaphore)
  | errand (a : Errand) (errorTy : Ty β) (scheduler : Option SchedulerId)
  | other (t : Tree β Ω) (leaves : t.Leaves sem.cell) (errorTy valueTy : Ty β)
      (scheduler : Option SchedulerId)
  | move (m : Move β Ω)
  | hold (permits : Nat) (work : Work)
  | poll (i : Nat) (w : Waker)
  | turn (i : Nat)
  | drop (i : Nat)
  | openGate (g : GateId) (r : Except Panic (Any β))

structure Site (β : Type) [Universe β] (Ω : Type) where
  engine : Engine β Ω
  gates : Hold.Gates β := ∅
  tenures : List (Tenure β) := []
  errands : Ledger := []

namespace Site

variable {sem : Semaphore}

def ledger (s : Site β Ω) : Ledger := s.errands ++ s.tenures.flatMap Tenure.ledger

def atRest (s : Site β Ω) : Bool := s.tenures.all fun t => !t.busy

def held (s : Site β Ω) : Nat := (s.tenures.map (·.permits s.engine)).foldr (· + ·) 0

def set (s : Site β Ω) (i : Nat) (t : Tenure β) (gates : Hold.Gates β) (e : Engine β Ω) : Site β Ω :=
  { s with engine := e, gates, tenures := s.tenures.set i t }

def act (s : Site β Ω) : Deed β Ω sem → Site β Ω
  | .errand a E d =>
    { s with
      engine := s.engine.act (.commit (a.tx sem (R := .unit) (E := E)).tree E .unit d)
      errands := (s.engine.nextCommit, a) :: s.errands }
  | .other t _ E A d => { s with engine := s.engine.act (.commit t E A d) }
  | .move m => { s with engine := s.engine.act m }
  -- A hold that was not polled yet waits for that as one that has answered that it is pending.
  | .hold n work =>
    { s with
      tenures := s.tenures ++
        [{ hold := { semaphore := sem, permits := n, work, answer := some .pending } }] }
  | .poll i w =>
    match s.tenures[i]? with
    | some t => s.set i (t.become (t.hold.poll w)) s.gates s.engine
    | none => s
  | .turn i =>
    match s.tenures[i]? with
    | some t =>
      let (h, gates, e, _) := t.hold.advance s.gates s.engine
      s.set i (t.become h) gates e
    | none => s
  | .drop i =>
    match s.tenures[i]? with
    | some t =>
      let (h, e) := t.hold.drop s.engine
      s.set i (t.become h) s.gates e
    | none => s
  | .openGate g r =>
    let (gates, e) := s.engine.openGate s.gates g r
    { s with engine := e, gates }

/-- What is possible at a moment. The commits that a hold has are called by nobody else, and those it has
made are interrupted by nobody. A hold goes on when none of its commits is being run, and is polled
until it is over. -/
def admits (s : Site β Ω) : Deed β Ω sem → Bool
  | .errand .. | .other .. | .openGate .. => true
  | .move m => s.engine.admits m && !(m matches .commit ..) && s.tenures.all fun t =>
      t.has.all (!m.handles ·) && t.own.all (!m.meddles ·)
  | .hold _ work => work.commits.all fun c =>
      s.engine.isFree c && s.tenures.all (!·.has.contains c)
  | .poll i _ => (s.tenures[i]?).any fun t => !t.busy && !t.hold.stage.isOver
  | .turn i => (s.tenures[i]?).any fun t => t.busy && (t.hold.running? s.engine).isNone
  | .drop i => (s.tenures[i]?).any fun t => !t.busy

/-- A release is published that would count further than there are numbers. -/
def overflows (s : Site β Ω) : Deed β Ω sem → Bool
  | .move m => s.ledger.overflows sem (s.engine, m)
  | _ => false

structure Opens (sem : Semaphore) (n : Nat) (s : Site β Ω) : Prop where
  run : ∃ h, Run h s.engine
  cell : sem.cell ∈ s.engine.store.cells
  count : s.engine.store.value sem.cell = ⟨.nat, n⟩
  others : ∀ (id : CommitId) (c : Commit β Ω), s.engine.commits[id]? = some c →
    c.tree.Leaves sem.cell
  tenures : s.tenures = []
  errands : s.errands = []

/-- One site becomes another by what is done there, as long as no release finds the semaphore full. -/
inductive Leads (sem : Semaphore) (s : Site β Ω) : Site β Ω → Prop
  | refl : Leads sem s s
  | next {s' : Site β Ω} {d : Deed β Ω sem} :
    Leads sem s s' → s'.admits d → s'.overflows d = false → Leads sem s (s'.act d)

def play (s : Site β Ω) : List (Deed β Ω sem) → Site β Ω
  | [] => s
  | d :: ds => (s.act d).play ds

def allows (s : Site β Ω) : List (Deed β Ω sem) → Bool
  | [] => true
  | d :: ds => s.admits d && !s.overflows d && (s.act d).allows ds

theorem Leads.play {s s' : Site β Ω} (h : Leads sem s s') (ds : List (Deed β Ω sem))
    (ok : s'.allows ds) : Leads sem s (s'.play ds) := by
  induction ds generalizing s' with
  | nil => exact h
  | cons d ds ih =>
    simp only [allows, Bool.and_eq_true, Bool.not_eq_true'] at ok
    exact ih (h.next ok.1.1 ok.1.2) ok.2

end Site
end TransactionalMemory
