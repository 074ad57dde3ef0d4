import TransactionalMemory.Engine.Basic

/-! Histories of an engine. Polls, synchronous runs, interrupts and drops of any commits are moves,
and so is every single turn of a commit that is being run. Whatever user code or a listener of log
lines starts in the middle of an attempt is a move between two of its turns. -/

namespace TransactionalMemory

/-- One thing that can happen to an engine. -/
inductive Move (β : Type) [Universe β] (Ω : Type)
  | alloc (v : Any β)
  | change (world : Ω)
  | takeFiber
  | addScheduler (s : SchedulerId) (mode : Mode)
  | commit (tree : Tree β Ω) (errorTy valueTy : Ty β) (scheduler : Option SchedulerId)
  | setFiber (id : CommitId) (f : FiberId)
  | setScheduler (id : CommitId) (s : Option SchedulerId)
  | setWatched (id : CommitId) (watched : Bool)
  | poll (id : CommitId) (w : Waker)
  | runSync (id : CommitId)
  | advance (id : CommitId)
  | settle (id : CommitId)
  | interrupt (id : CommitId) (f : FiberId)
  | drop (id : CommitId)
  | runTasks (s : SchedulerId)
  | runTask (s : SchedulerId) (n : Nat)
  | wake (w : Waker)
  | park

variable {β : Type} [Universe β] {Ω : Type}

namespace Phase

def isIdle : Phase β Ω → Bool
  | .idle => true
  | _ => false

def isBusy : Phase β Ω → Bool
  | .busy _ _ => true
  | _ => false

end Phase

def Machine.grounded (m : Machine β Ω) (s : Store β) : Bool :=
  match m.focus with
  | .run (.touch c _) => s.cells.contains c
  | _ => true

namespace Engine

def isFree (e : Engine β Ω) (id : CommitId) : Bool :=
  match e.commits[id]? with
  | some c => c.held && c.phase.isIdle
  | none => false

def runNth (e : Engine β Ω) (s : SchedulerId) (n : Nat) : Engine β Ω :=
  match e.schedulers[s]? with
  | some d =>
    { e with schedulers := e.schedulers.insert s { d with tasks := d.tasks.eraseIdx n } }.runTask
      ((d.tasks[n]?).getD [])
  | none => e

def act (e : Engine β Ω) : Move β Ω → Engine β Ω
  | .alloc v => { e with store := (e.store.alloc v).2 }
  | .change ω => { e with world := ω }
  | .takeFiber => e.freshFiber.2
  | .addScheduler s mode => { e with schedulers := e.schedulers.insert s { mode } }
  | .commit t E A s => (e.commit (⟨t⟩ : Tx Ω .unit E A) s).2
  | .setFiber id f => e.modify id ({ · with fiber := f })
  | .setScheduler id s => e.modify id ({ · with scheduler := s })
  | .setWatched id b => e.modify id ({ · with watched := b })
  | .poll id w => e.poll id w
  | .runSync id => e.runSync id
  | .advance id => (e.advance id).1
  | .settle id => e.settle id
  | .interrupt id f => (e.interrupt id f).2.1
  | .drop id => e.drop id
  | .runTasks s => (e.runTasks s).2
  | .runTask s n => e.runNth s n
  | .wake w => e.wake w
  | .park => { e with unparked := false }

/-- What is possible at a moment. A handle is used by one call at a time, and the calls that use it up
are the last ones. -/
def admits (e : Engine β Ω) : Move β Ω → Bool
  | .addScheduler s _ => !e.schedulers.contains s
  | .setFiber id _ | .setScheduler id _ | .poll id _ | .runSync id | .drop id => e.isFree id
  | .setWatched id b => !b || e.isFree id
  | .advance id =>
    match e.commits[id]? with
    | some c =>
      match c.phase with
      | .busy _ (.running m) => m.grounded e.store
      | p => p.isBusy
    | none => false
  | .settle id => (e.answer? id).isSome
  | _ => true

end Engine

/-- What has happened so far, the latest move first, each with the engine it was made on. -/
abbrev History (β : Type) [Universe β] (Ω : Type) := List (Engine β Ω × Move β Ω)

/-- The engines that moves lead to from an empty one, with the histories that lead there. -/
inductive Run : History β Ω → Engine β Ω → Prop
  | start (ω : Ω) : Run [] { world := ω }
  | next {h : History β Ω} {e : Engine β Ω} {m : Move β Ω} :
    Run h e → e.admits m → Run ((e, m) :: h) (e.act m)

namespace Engine

def play (e : Engine β Ω) (h : History β Ω) : List (Move β Ω) → History β Ω × Engine β Ω
  | [] => (h, e)
  | m :: ms => (e.act m).play ((e, m) :: h) ms

def allows (e : Engine β Ω) : List (Move β Ω) → Bool
  | [] => true
  | m :: ms => e.admits m && (e.act m).allows ms

end Engine

theorem Engine.play_eq {e : Engine β Ω} {h : History β Ω} {ms : List (Move β Ω)} :
    e.play h ms = ((e.play [] ms).1 ++ h, (e.play [] ms).2) := by
  induction ms generalizing e h with
  | nil => rfl
  | cons m ms ih =>
    rw [play, ih, play, ih (h := [(e, m)])]
    simp

theorem Engine.moves_play {e : Engine β Ω} {h : History β Ω} {ms : List (Move β Ω)} :
    (e.play h ms).1.map (·.2) = ms.reverse ++ h.map (·.2) := by
  induction ms generalizing e h with
  | nil => rfl
  | cons m ms ih => simp [play, ih]

theorem Engine.mem_of_mem_play {e : Engine β Ω} {ms : List (Move β Ω)} {x : Engine β Ω × Move β Ω}
    (h : x ∈ (e.play [] ms).1) : x.2 ∈ ms := by
  have hm : x.2 ∈ (e.play [] ms).1.map (·.2) := List.mem_map_of_mem h
  rwa [moves_play, List.map_nil, List.append_nil, List.mem_reverse] at hm

theorem Run.play {h : History β Ω} {e : Engine β Ω} (r : Run h e) {ms : List (Move β Ω)}
    (ok : e.allows ms) : Run (e.play h ms).1 (e.play h ms).2 := by
  induction ms generalizing h e with
  | nil => exact r
  | cons m ms ih =>
    simp only [Engine.allows, Bool.and_eq_true] at ok
    exact ih (r.next ok.1) ok.2

end TransactionalMemory
