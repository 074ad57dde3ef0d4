import TransactionalMemory.Commit.Notice
import TransactionalMemory.Commit.Signals
import TransactionalMemory.Journal.Publish
import TransactionalMemory.Journal.Watch
import TransactionalMemory.Machine

/-! A commit: a transaction on its way to being published. It is run in turns. Between any two of
them other commits may have theirs. -/

namespace TransactionalMemory

inductive Call
  | poll (w : Waker)
  | sync

inductive Answer (β : Type) [Universe β]
  | pending
  | ready (r : Result β)
  | wouldSuspend

/-- Where a commit that is being run stands. Each point after a log line is one of its own. -/
inductive Point (β : Type) [Universe β] (Ω : Type)
  | top
  | leaving
  | starting
  | launching
  | running (m : Machine β Ω)
  | published (r : Result β) (woken : List CommitId)
  | waking (r : Result β) (woken : List CommitId)
  | finishing (r : Result β)
  | parking (j : Journal β) (seen : State)

inductive Phase (β : Type) [Universe β] (Ω : Type)
  | idle
  | busy (call : Call) (point : Point β Ω)
  | answered (a : Answer β)

structure Commit (β : Type) [Universe β] (Ω : Type) where
  tree : Tree β Ω
  errorTy : Ty β
  valueTy : Ty β
  fiber : FiberId
  scheduler : Option SchedulerId := none
  signals : Signals := {}
  /-- The journal of the last attempt that retried, while the commit waits for its cells. -/
  suspended : Option (Journal β) := none
  /-- That journal was stale before anyone could be told to wake the commit. -/
  rerun : Bool := false
  completed : Bool := false
  held : Bool := true
  watched : Bool := false
  phase : Phase β Ω := .idle

structure Turn (β : Type) [Universe β] (Ω : Type) where
  commit : Commit β Ω
  store : Store β
  world : Ω
  woken : List CommitId := []
  notice : Option Notice := none

namespace Commit

variable {β : Type} [Universe β] {Ω : Type}

/-- Callbacks of a commit that nobody can run or interrupt any more do nothing. -/
def isAlive (c : Commit β Ω) : Bool := c.held || c.watched

def goto (c : Commit β Ω) (call : Call) (p : Point β Ω) : Commit β Ω :=
  { c with phase := .busy call p }

def answer (c : Commit β Ω) (a : Answer β) : Commit β Ω := { c with phase := .answered a }

def release (c : Commit β Ω) (s : Store β) : Commit β Ω × Store β :=
  match c.suspended with
  | some j => ({ c with suspended := none }, j.unwatch s c.fiber)
  | none => (c, s)

def drop (c : Commit β Ω) (s : Store β) : Commit β Ω × Store β :=
  let (c, s) := c.release s
  ({ c with held := false }, s)

def finish (c : Commit β Ω) (call : Call) (s : Store β) (r : Result β) : Commit β Ω × Store β :=
  let (c, s) := match call with
    | .poll _ => c.release s
    | .sync => c.drop s
  (({ c with completed := true }).answer (.ready r), s)

def look (c : Commit β Ω) (call : Call) (s : Store β) (ω : Ω) : Turn β Ω :=
  if c.signals.state = .interrupted then
    { commit := c.goto call .leaving, store := s, world := ω, notice := some (.interrupted c.fiber) }
  else
    match call, c.suspended.isSome && !c.rerun with
    | .poll w, true =>
      let g := c.signals.register w
      if g.state ≠ .running then { commit := { c with signals := g }, store := s, world := ω }
      else if g.notified then
        { commit := { c with signals := g.hush, rerun := false }.goto call .starting
          store := s, world := ω, notice := some (.wokenUp c.fiber) }
      else { commit := { c with signals := g }.answer .pending, store := s, world := ω }
    | _, _ => { commit := { c with rerun := false }.goto call .starting, store := s, world := ω }

def follow (id : CommitId) (c : Commit β Ω) (s : Store β) (j : Journal β) : Nat × Store β :=
  let s := match c.suspended with
    | some k => Journal.leave s c.fiber (k.untracked j)
    | none => s
  j.watch s c.fiber id

def suspend (id : CommitId) (c : Commit β Ω) (call : Call) (s : Store β) (ω : Ω) (j : Journal β) :
    Turn β Ω :=
  match call with
  | .sync =>
    let (c, s) := c.drop s
    { commit := c.answer .wouldSuspend, store := s, world := ω }
  | .poll w =>
    let g := c.signals.hush.register w
    let (n, s) := c.follow id s j
    { commit := { c with signals := g, suspended := none }.goto call (.parking j g.state)
      store := s, world := ω, notice := some (.suspended c.fiber j.size n) }

def conclude (c : Commit β Ω) (call : Call) (s : Store β) (ω : Ω) (o : Outcome β) (j : Journal β) :
    Turn β Ω :=
  match j.analyze s with
  | .invalid =>
    { commit := c.goto call .starting, store := s, world := ω
      notice := some (.validationFailed c.fiber) }
  | a =>
    match c.signals.finish with
    | none =>
      { commit := c.goto call (.finishing (.error (.interrupt c.fiber))), store := s, world := ω }
    | some g =>
      let c := { c with signals := g }
      let r := o.result?.getD (.error (.halt (.message "retry reached the committer")))
      let line := some (.published c.fiber a j.size)
      if a = .readWrite then
        match j.publish s with
        | .ok (woken, s, _) =>
          { commit := c.goto call (.published r (woken.toList.map (·.2))), store := s, world := ω
            notice := line }
        | .error why =>
          { commit := c.goto call (.finishing (.error (.halt (.message why.message))))
            store := s, world := ω, notice := some (.publicationFailed c.fiber why) }
      else { commit := c.goto call (.published r []), store := s, world := ω, notice := line }

def run (id : CommitId) (c : Commit β Ω) (call : Call) (s : Store β) (ω : Ω) :
    Point β Ω → Turn β Ω
  | .top => c.look call s ω
  | .leaving =>
    let (c, s) := c.finish call s (.error (.interrupt c.fiber))
    { commit := c, store := s, world := ω }
  | .starting =>
    if c.signals.state = .interrupted then
      { commit := c.goto call (.finishing (.error (.interrupt c.fiber))), store := s, world := ω }
    else
      { commit := c.goto call .launching, store := s, world := ω
        notice := some (.attemptStarted c.fiber) }
  | .launching =>
    { commit := c.goto call (.running (.start c.tree .unit)), store := s, world := ω }
  | .running m =>
    match m.outcome? with
    | none =>
      let (m, s, ω) := m.step c.fiber s ω
      { commit := c.goto call (.running m), store := s, world := ω }
    | some o =>
      match o.conform c.errorTy c.valueTy with
      | .retry =>
        if m.journal.isValid s then c.suspend id call s ω m.journal
        else
          { commit := c.goto call .starting, store := s, world := ω
            notice := some (.retriedOnStaleReads c.fiber) }
      | o => c.conclude call s ω o m.journal
  | .published r [] => { commit := c.goto call (.finishing r), store := s, world := ω }
  | .published r woken =>
    { commit := c.goto call (.waking r woken), store := s, world := ω
      notice := some (.waking c.fiber woken.length) }
  | .waking r woken => { commit := c.goto call (.finishing r), store := s, world := ω, woken }
  | .finishing r =>
    let (c, s) := c.finish call s r
    { commit := c, store := s, world := ω }
  | .parking j seen =>
    let stale := !j.isValid s
    let c := { c with suspended := some j, rerun := stale }
    if !stale && seen = .running then { commit := c.answer .pending, store := s, world := ω }
    else { commit := c.goto call .top, store := s, world := ω }

end Commit
end TransactionalMemory
