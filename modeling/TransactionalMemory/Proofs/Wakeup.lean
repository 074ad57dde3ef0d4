import TransactionalMemory.Proofs.Delivery
import TransactionalMemory.Proofs.Registration

namespace TransactionalMemory

variable {β : Type} [Universe β] {Ω : Type}

def Phase.isParked : Phase β Ω → Bool
  | .busy _ (.parking _ _) | .answered .pending => true
  | _ => false

def Move.losesTasks : Move β Ω → Bool
  | .addScheduler _ .drop => true
  | _ => false

def Phase.isQuiet : Phase β Ω → Bool
  | .idle | .answered _ | .busy _ (.parking _ _) => true
  | _ => false

theorem Phase.isQuiet_of_not_busy {p : Phase β Ω} (h : p.isBusy = false) : p.isQuiet := by
  cases p with
  | busy => cases h
  | idle | answered => rfl

def Engine.registers (id : CommitId) (x : Engine β Ω × Move β Ω) : Bool :=
  match x.2 with
  | .advance k => k = id && !(x.1.commits[id]?).any (·.phase.isParked) &&
    ((x.1.act x.2).commits[id]?).any (·.phase.isParked)
  | _ => false

namespace History

def lastPolled (id : CommitId) : History β Ω → Option Waker
  | [] => none
  | (_, .poll k w) :: h => if k = id then some w else lastPolled id h
  | _ :: h => lastPolled id h

def sinceRegistered (id : CommitId) : History β Ω → Option (History β Ω)
  | [] => none
  | x :: h =>
    if Engine.registers id x then some []
    else if x.2.calls id then none
    else (sinceRegistered id h).map (x :: ·)

variable {h : History β Ω} {e : Engine β Ω} {m : Move β Ω} {id : CommitId}

theorem lastPolled_cons (hm : m.calls id = false) :
    lastPolled id ((e, m) :: h) = h.lastPolled id := by
  cases m with
  | poll k w => rw [lastPolled, if_neg (of_decide_eq_false hm)]
  | _ => rfl

theorem sinceRegistered_cons (hr : Engine.registers id (e, m) = false) (hm : m.calls id = false) :
    sinceRegistered id ((e, m) :: h) = (h.sinceRegistered id).map ((e, m) :: ·) := by
  simp [sinceRegistered, hr, hm]

end History

theorem Engine.registers_of_ne {e : Engine β Ω} {m : Move β Ω} {id : CommitId}
    (h : m ≠ .advance id) : Engine.registers id (e, m) = false := by
  unfold registers
  split
  · rename_i k hk
    have hne : k ≠ id := by
      rintro rfl
      exact h hk
    simp [hne]
  · rfl

theorem Engine.registers_advance {e : Engine β Ω} {id : CommitId} {c c' : Commit β Ω}
    (hc : e.commits[id]? = some c) (hc' : (e.act (.advance id)).commits[id]? = some c') :
    Engine.registers id (e, .advance id) = (!c.phase.isParked && c'.phase.isParked) := by
  simp [registers, hc, hc']

namespace Commit

variable {id : CommitId} {c c' : Commit β Ω} {s s' : Store β} {ω : Ω} {call : Call} {p : Point β Ω}
  {woken : List CommitId} {j : Journal β}

/-- The commit is running, and has been at rest since an attempt of it retried on this journal. -/
structure Waits (c : Commit β Ω) (j : Journal β) : Prop where
  rest : c.phase.isAtRest
  running : c.signals.state = .running
  watching : c.watching = some j

theorem Hears.waits {d : Commit β Ω} (h : c.Hears d) (hd : d.Waits j) : c.Waits j := by
  obtain ⟨g, rfl, hg⟩ := h.frame
  exact ⟨hd.rest, hg.symm.trans hd.running, hd.watching⟩

theorem Hears.signals {d : Commit β Ω} (h : c.Hears d) :
    d.signals = c.signals ∨ d.signals.waker = none ∧ d.signals.notified := by
  cases h with
  | calm => exact .inl rfl
  | heard =>
    unfold Commit.heard
    split
    · by_cases hr : c.signals.state = .running
      · simp [Signals.notify, hr]
      · simp [Signals.notify, hr]
    · exact .inl rfl

theorem Transition.call_eq {call' : Call} {q : Point β Ω}
    (h : c.Transition id s ω call p c' s' woken) (hp : c.phase = .busy call p)
    (hq : c'.phase = .busy call' q) : call' = call := by
  cases h with
  | stall =>
    cases hp.symm.trans hq
    rfl
  | leave | finish =>
    rw [finish_fst] at hq
    cases hq
  | refuse =>
    rw [drop_fst] at hq
    cases hq
  | sleep | rest => cases hq
  | stop | resume | begin | giveUp | attempt | launch | step | park | rerun | discard | lose
  | conclude | publish | skip | tell | wake | stir =>
    cases hq
    rfl

theorem notified_of_heard (h : c.heard = c) (ha : c.isAlive) (hr : c.signals.state = .running) :
    c.signals.notified := by
  have hn : c.heard.signals.notified := by
    simp [heard, ha, Signals.notify, hr]
  rwa [h] at hn

theorem Transition.waits (h : c.Transition id s ω call p c' s' woken) (hk : c.Known s)
    (hp : c.phase = .busy call p) (hw : c'.Waits j) :
    (j.isValid s ∧ ∀ d, s'.version d = s.version d) ∨
      (c.Waits j ∧ c'.signals.notified = c.signals.notified) := by
  obtain ⟨hr, hrun, hj⟩ := hw
  cases h with
  | stop hi =>
    rw [show c.signals.state = .running from hrun] at hi
    cases hi
  | stall hd =>
    rw [show c.signals.state = .running from hrun] at hd
    cases hd
  | sleep hs =>
    refine .inr ⟨⟨by rw [hp]; rfl, hs, ?_⟩, rfl⟩
    rw [watching_eq (by rw [hp]; rfl)]
    exact hj
  | leave | finish =>
    rw [finish_fst] at hj
    cases hj
  | refuse =>
    rw [drop_fst] at hj
    cases hj
  | @park w m ho hv =>
    cases hj
    exact .inl ⟨hv, (hk.sameVersions_follow (hk.2 m.journal (by rw [hp]; rfl))).version⟩
  | rest hv | stir hv =>
    refine .inr ⟨⟨by rw [hp]; rfl, hrun, ?_⟩, rfl⟩
    simp only [Commit.watching, hp]
    exact hj
  | resume | begin | giveUp | attempt | launch | step | rerun | discard | lose | conclude
  | publish | skip | tell | wake => cases hr

theorem Transition.quiet (h : c.Transition id s ω call p c' s' woken) (hp : c.phase = .busy call p)
    (hq : c'.phase.isQuiet) (hw : c'.Waits j) :
    (∃ w, call = .poll w ∧ c.phase.isParked = false ∧ c'.phase.isParked ∧
      c'.signals.waker = some w ∧ c'.signals.notified = false ∧ ∀ r woken, p ≠ .waking r woken) ∨
    c.Waits j ∧ c'.signals = c.signals ∧ ∃ k seen, p = .parking k seen := by
  cases h with
  | stall =>
    have hq : c.phase.isQuiet := hq
    rw [hp] at hq
    cases hq
  | sleep hs hsus hn hnot =>
    exact .inl ⟨_, rfl, by rw [hp]; rfl, rfl, rfl, hnot, nofun⟩
  | park => exact .inl ⟨_, rfl, by rw [hp]; rfl, rfl, rfl, rfl, nofun⟩
  | rest =>
    refine .inr ⟨⟨by rw [hp]; rfl, hw.running, ?_⟩, rfl, _, _, rfl⟩
    simp only [Commit.watching, hp]
    exact hw.watching
  | leave | finish =>
    have hj := hw.watching
    rw [finish_fst] at hj
    cases hj
  | refuse =>
    have hj := hw.watching
    rw [drop_fst] at hj
    cases hj
  | stop | resume | begin | giveUp | attempt | launch | step | rerun | discard | lose
  | conclude | publish | skip | tell | wake | stir => cases hq

end Commit

namespace Engine.Moved

variable {e : Engine β Ω} {m : Move β Ω} {id : CommitId} {c c' : Commit β Ω} {j : Journal β}

theorem waits (h : Moved e id m c c') (hk : c.Known e.store) (hw : c'.Waits j) :
    (j.isValid e.store ∧ ∀ d, (e.act m).store.version d = e.store.version d) ∨
      (c.Waits j ∧ c'.signals.notified = c.signals.notified) := by
  cases h with
  | keep | setFiber | setScheduler | setWatched =>
    exact .inr ⟨⟨hw.rest, hw.running, hw.watching⟩, rfl⟩
  | poll _ hi | refuse _ hi =>
    refine .inr ⟨⟨by rw [hi]; rfl, hw.running, ?_⟩, rfl⟩
    rw [Commit.watching_of_idle hi]
    exact hw.watching
  | runSync => cases hw.rest
  | settle ha =>
    refine .inr ⟨⟨by rw [ha]; rfl, hw.running, ?_⟩, rfl⟩
    rw [Commit.watching_eq (by rw [ha]; rfl)]
    exact hw.watching
  | interrupt => cases hw.running
  | drop _ hi =>
    have hj := hw.watching
    rw [Commit.drop_fst, Commit.watching_of_idle (by exact hi)] at hj
    cases hj
  | turn hp ht => exact ht.waits hk hp hw

theorem quiet (h : Moved e id m c c') (ht : c.Tidy) (hq : c'.phase.isQuiet) (hw : c'.Waits j) :
    (∃ w p, m = .advance id ∧ c.phase = .busy (.poll w) p ∧ c.phase.isParked = false ∧
      c'.phase.isParked ∧ c'.signals.waker = some w ∧ c'.signals.notified = false ∧
      ∀ r woken, p ≠ .waking r woken) ∨
    c.Waits j ∧ c.phase.isQuiet ∧ c'.signals = c.signals ∧ m.calls id = false ∧
      (m = .advance id → ∃ call k seen, c.phase = .busy call (.parking k seen)) := by
  cases h with
  | keep hne hcalls =>
    exact .inr ⟨⟨hw.rest, hw.running, hw.watching⟩, hq, rfl, hcalls, (absurd · hne)⟩
  | setFiber | setScheduler | setWatched =>
    exact .inr ⟨⟨hw.rest, hw.running, hw.watching⟩, hq, rfl, rfl, nofun⟩
  | settle ha =>
    refine .inr ⟨⟨by rw [ha]; rfl, hw.running, ?_⟩, by rw [ha]; rfl, rfl, rfl, nofun⟩
    rw [Commit.watching_eq (by rw [ha]; rfl)]
    exact hw.watching
  | refuse _ hi hd =>
    have hj : c.suspended = some j := hw.watching
    have hl := ht.live (by rw [Commit.watching_of_idle hi, hj]; rfl)
    simp [Commit.isLive, hd] at hl
  | poll | runSync => cases hq
  | interrupt => cases hw.running
  | drop _ hi =>
    have hj := hw.watching
    rw [Commit.drop_fst, Commit.watching_of_idle (by exact hi)] at hj
    cases hj
  | turn hp htr =>
    rcases htr.quiet hp hq hw with ⟨w, rfl, h⟩ | ⟨hw', hsig, k, seen, rfl⟩
    · exact .inl ⟨w, _, rfl, hp, h⟩
    · exact .inr ⟨hw', by rw [hp]; rfl, hsig, rfl, fun _ => ⟨_, k, seen, hp⟩⟩

end Engine.Moved

section

variable {h : History β Ω} {e : Engine β Ω} {id : CommitId} {c : Commit β Ω}

theorem Run.mode_ne_drop (r : Run h e) (hs : ∀ x ∈ h, x.2.losesTasks = false)
    {s : SchedulerId} {d : Scheduler} (hd : e.schedulers[s]? = some d) : d.mode ≠ .drop := by
  induction r generalizing d with
  | start ω => simp at hd
  | @next h e m r hm ih =>
    have ih {d : Scheduler} := ih (d := d) fun x hx => hs x (List.mem_cons_of_mem _ hx)
    have hr := Engine.rescheduled (s := s) hm
    generalize (e.act m).schedulers[s]? = ds at hr hd
    cases hr with
    | keep => exact ih hd
    | @new mode =>
      cases hd
      rintro rfl
      cases hs _ List.mem_cons_self
    | run rest hd' =>
      cases hd
      exact (ih hd' :)
    | more n tasks hd' =>
      cases hd
      exact (ih hd' :)

theorem Run.owes_of_moved_on (r : Run h e) (ho : h.Orderly e) {m : Move β Ω} (hm : e.admits m)
    (hc : e.commits[id]? = some c) {j : Journal β} (hj : c.watching = some j) {d : CellId}
    {x : Entry β} (hx : j.entries[d]? = some x) (hcr : x.created = false)
    (hv : x.isValid d e.store) (hv' : x.isValid d (e.act m).store = false) :
    (e.act m).Owes id := by
  have hw : e.watches id = some (c.fiber, j) := by
    rw [Engine.watches_eq .calm hc, Commit.watch?, hj]
    rfl
  have hexact := r.exact ho
  have hl := (r.tidy hc).live (by rw [hj]; rfl)
  refine Engine.owes_of_version r.tracked hm (r.tracked.known_of_watches hw d x hx).cell ?_
    ((hexact d c.fiber id).2 ⟨j, x, hw, hx, hcr, hv⟩) fun d' k hd' => ?_
  · intro hsame
    rw [Entry.isValid_congr hsame, hv] at hv'
    cases hv'
  · obtain ⟨j', y, hw', -⟩ := hexact.watches hd'
    exact ho.distinct.alone r.tidy hc hl hw'

/-- A commit that waits for a cell that has moved on has been told so, or is owed it. -/
theorem Run.notified_or_owes (r : Run h e) (ho : h.Orderly e)
    (hs : ∀ x ∈ h, x.2.losesTasks = false) (hc : e.commits[id]? = some c) {j : Journal β}
    (hw : c.Waits j) {d : CellId} {x : Entry β} (hx : j.entries[d]? = some x)
    (hcr : x.created = false) (hv : x.isValid d e.store = false) :
    c.signals.notified ∨ e.Owes id := by
  induction r generalizing c with
  | start ω => simp at hc
  | @next h e m r hm ih =>
    obtain ⟨-, -, ho⟩ := ho
    have hs' : ∀ x ∈ h, x.2.losesTasks = false := fun x hx => hs x (List.mem_cons_of_mem _ hx)
    have he := r.tracked
    cases hb : e.commits[id]? with
    | none =>
      obtain ⟨_, _, _, _, rfl, rfl, rfl⟩ := Engine.fresh_of_act hm hb hc
      cases hw.watching
    | some b =>
      obtain ⟨c', d', hmv, hears, hc'⟩ := Engine.moved hm hb (he.ne_nextCommit hb)
      obtain rfl : c = d' := Option.some.inj (hc.symm.trans hc')
      rcases hmv.waits (he.known id b hb) (hears.waits hw) with ⟨hvalid, hsame⟩ | ⟨hwb, hn⟩
      · rw [Entry.isValid_congr (hsame d), (Journal.isValid_iff j e.store).1 hvalid d x hx] at hv
        cases hv
      · cases hxv : x.isValid d e.store with
        | true => exact .inr (r.owes_of_moved_on ho hm hb hwb.watching hx hcr hxv hv)
        | false =>
          rcases ih ho hs' hb hwb hxv with h | h
          · refine .inl ?_
            rcases hears.signals with hsig | ⟨-, hn'⟩
            · rw [hsig, hn, h]
            · exact hn'
          · rcases h.act he hm fun _ _ => r.mode_ne_drop hs' with h | h
            · exact .inr h
            · have hl := ((r.next hm).tidy hc).live (by rw [hw.watching]; rfl)
              simp only [Commit.isLive, Bool.and_eq_true] at hl
              have ha : c.isAlive := by simp only [Commit.isAlive, hl.1, Bool.true_or]
              exact .inl (Commit.notified_of_heard (h c hc) ha hw.running)

theorem Run.lastPolled_of_poll (r : Run h e) (hc : e.commits[id]? = some c) {w : Waker}
    {p : Point β Ω} (hp : c.phase = .busy (.poll w) p) : h.lastPolled id = some w := by
  refine r.each (P := fun h _ i c => ∀ w p, c.phase = .busy (.poll w) p → h.lastPolled i = some w)
    ?_ ?_ ?_ hc w p hp
  · intro h e t E A f s _ w p hp
    cases hp
  · intro h e m i c c' _ _ _ ih hm w p hp
    cases hm with
    | keep _ hcalls =>
      rw [History.lastPolled_cons hcalls]
      exact ih w p hp
    | setFiber | setScheduler | setWatched | interrupt =>
      rw [History.lastPolled_cons rfl]
      exact ih w p hp
    | poll =>
      cases hp
      exact if_pos rfl
    | refuse | runSync | settle => cases hp
    | drop _ hi =>
      rw [Commit.drop_fst] at hp
      cases hi.symm.trans hp
    | turn hp₀ ht =>
      rw [History.lastPolled_cons rfl]
      rw [← ht.call_eq hp₀ hp] at hp₀
      exact ih w _ hp₀
  · intro _ _ _ _ _ _ ih
    exact ih

/-- The waker of the latest poll of the commit is in its slot and nothing has been heard, or something
has been heard and the waker has been woken since it was registered. -/
def History.Rung (h : History β Ω) (id : CommitId) (g : Signals) : Prop :=
  ∃ w l, h.lastPolled id = some w ∧ h.sinceRegistered id = some l ∧
    (g.waker = some w ∧ g.notified = false ∨
      g.waker = none ∧ g.notified ∧ ∃ x ∈ l, Engine.Rings w x)

theorem History.Rung.cons (hr : h.Rung id c.signals) {m : Move β Ω} {d : Commit β Ω}
    (hm : e.admits m) (hc : e.commits[id]? = some c) (hi : id ≠ e.nextCommit)
    (hd : (e.act m).commits[id]? = some d) (hreg : Engine.registers id (e, m) = false)
    (hcalls : m.calls id = false)
    (hs : d.signals = c.signals ∨ d.signals.waker = none ∧ d.signals.notified)
    (hown : m = .advance id → d.signals = c.signals) :
    History.Rung ((e, m) :: h) id d.signals := by
  obtain ⟨w, l, hpoll, hsince, h⟩ := hr
  refine ⟨w, (e, m) :: l, (lastPolled_cons hcalls).trans hpoll, ?_, ?_⟩
  · rw [sinceRegistered_cons hreg hcalls, hsince]
    rfl
  · rcases h with ⟨hslot, hn⟩ | ⟨hslot, hn, x, hx, hring⟩
    · rcases hs with hs | ⟨hnone, hn'⟩
      · exact .inl ⟨hs ▸ hslot, hs ▸ hn⟩
      · have hne : m ≠ .advance id := by
          intro hm
          rw [hown hm, hn] at hn'
          cases hn'
        exact .inr ⟨hnone, hn', (e, m), List.mem_cons_self,
          Engine.rings_of_notified hm hc hi hne hslot hn hd hn'⟩
    · refine .inr ?_
      rcases hs with hs | ⟨hnone, hn'⟩
      · exact ⟨hs ▸ hslot, hs ▸ hn, x, List.mem_cons_of_mem _ hx, hring⟩
      · exact ⟨hnone, hn', x, List.mem_cons_of_mem _ hx, hring⟩

theorem Run.rung (r : Run h e) (hc : e.commits[id]? = some c) {j : Journal β} (hw : c.Waits j)
    (hq : c.phase.isQuiet) : h.Rung id c.signals := by
  induction r generalizing c with
  | start ω => simp at hc
  | @next h e m r hm ih =>
    have he := r.tracked
    cases hb : e.commits[id]? with
    | none =>
      obtain ⟨_, _, _, _, rfl, rfl, rfl⟩ := Engine.fresh_of_act hm hb hc
      cases hw.watching
    | some b =>
      have hi := he.ne_nextCommit hb
      obtain ⟨c', hmv, hleft⟩ := Engine.moved_left hm hb hi
      obtain ⟨hears, hown⟩ := hleft.hears hc
      have hq' : c'.phase.isQuiet := by
        obtain ⟨g, rfl, -⟩ := hears.frame
        exact hq
      rcases hmv.quiet (r.tidy hb) hq' (hears.waits hw) with
        ⟨w, p, rfl, hp, hpark, hpark', hslot, hn, hnot⟩ | ⟨hwb, hqb, hsig, hcalls, hparked⟩
      · obtain rfl : c = c' := hown rfl fun call r woken h => by
          cases hp.symm.trans h
          exact hnot r woken rfl
        have hreg : Engine.registers id (e, .advance id) := by
          rw [Engine.registers_advance hb hc, hpark, hpark']
          rfl
        refine ⟨w, [], ?_, by rw [History.sinceRegistered, if_pos hreg], .inl ⟨hslot, hn⟩⟩
        rw [History.lastPolled_cons rfl]
        exact r.lastPolled_of_poll hb hp
      · refine (ih hb hwb hqb).cons hm hb hi hc ?_ hcalls (hsig ▸ hears.signals) fun hm => ?_
        · by_cases hm : m = .advance id
          · subst hm
            obtain ⟨call, k, seen, hp⟩ := hparked rfl
            rw [Engine.registers_advance hb hc, hp]
            rfl
          · exact Engine.registers_of_ne hm
        · obtain ⟨call, k, seen, hp⟩ := hparked hm
          rw [hown hm fun call r woken h => by cases hp.symm.trans h]
          exact hsig

/-- If a commit has been answered that it has to wait, and a cell that its last attempt has seen and has
not made has moved on since, then it has been told so and the waker of its latest poll was woken, or
somebody still holds its callback. -/
theorem Run.woken_or_owed (r : Run h e) (ho : h.Orderly e)
    (hs : ∀ x ∈ h, x.2.losesTasks = false) (hc : e.commits[id]? = some c)
    (hb : c.phase.isBusy = false) (ha : h.lastAnswer e id = some .pending) (hh : c.held)
    (hrun : c.signals.state = .running) {j : Journal β} (hj : h.lastRetry id = some j) {d : CellId}
    {x : Entry β} (hx : j.entries[d]? = some x) (hcr : x.created = false)
    (hv : x.isValid d e.store = false) :
    (c.signals.notified ∧ ∃ w l, h.lastPolled id = some w ∧ h.sinceRegistered id = some l ∧
      ∃ y ∈ l, Engine.Rings w y) ∨ e.Owes id := by
  obtain ⟨k, hk⟩ := Option.isSome_iff_exists.1 ((r.suspended_iff hc hb).2 ⟨hh, ha⟩)
  have hw : c.Waits k := by
    refine ⟨Phase.isAtRest_of_not_busy hb, hrun, ?_⟩
    rw [Commit.watching_eq (Phase.isParking_of_not_busy hb), hk]
  have hjk := r.lastRetry_of_watching hc hw.rest hw.watching
  rw [hj] at hjk
  cases hjk
  rcases r.notified_or_owes ho hs hc hw hx hcr hv with hnot | howes
  · obtain ⟨w, l, hpoll, hsince, ⟨-, hn'⟩ | ⟨-, -, hring⟩⟩ := 
      r.rung hc hw (Phase.isQuiet_of_not_busy hb)
    · rw [hnot] at hn'
      cases hn'
    · exact .inl ⟨hnot, w, l, hpoll, hsince, hring⟩
  · exact .inr howes

end

/-- A commit is polled and goes to wait for a cell. Then another one writes the cell, and hands the
callback to a scheduler, which runs it. -/
def lateWrite : List (Move Scenario.Base Unit) :=
  let cell : Ref (.nat : Ty Scenario.Base) := ⟨⟨1⟩⟩
  let write := (cell.set (R := .unit) (E := .never) (Ω := Unit) (1 : Nat)).tree
  let turns n i := List.replicate n (Move.advance ⟨i⟩)
  [.alloc ⟨.nat, (0 : Nat)⟩, .addScheduler ⟨1⟩ .queue,
    .commit (.touch ⟨1⟩ fun _ _ => .ok (.leave .retry)) .never .unit none,
    .commit write .never .unit (some ⟨1⟩), .poll ⟨1⟩ (.task ⟨5⟩)] ++ turns 6 1 ++
  [.settle ⟨1⟩, .runSync ⟨2⟩] ++ turns 7 2 ++ [.runTasks ⟨1⟩]

theorem woken_lateWrite :
    let p := Engine.play { world := () } [] lateWrite
    ∃ c, p.2.commits[(⟨1⟩ : CommitId)]? = some c ∧
      ((c.signals.notified ∧ ∃ w l, p.1.lastPolled ⟨1⟩ = some w ∧
        p.1.sinceRegistered ⟨1⟩ = some l ∧ ∃ y ∈ l, Engine.Rings w y) ∨ p.2.Owes ⟨1⟩) := by
  intro p
  have r : Run p.1 p.2 := (Run.start ()).play (by decide +kernel)
  obtain ⟨c, hc⟩ : ∃ c, p.2.commits[(⟨1⟩ : CommitId)]? = some c :=
    Option.isSome_iff_exists.1 (by decide +kernel)
  have hp : (p.2.commits[(⟨1⟩ : CommitId)]?).map
    (fun c => (c.phase.isBusy, c.held, c.signals.state)) = some (false, true, .running) := by
      decide +kernel
  simp only [hc, Option.map_some, Option.some.injEq, Prod.mk.injEq] at hp
  obtain ⟨hb, hh, hrun⟩ := hp
  have ha : p.1.lastAnswer p.2 ⟨1⟩ = some .pending := by with_unfolding_all rfl
  have hx : ((p.1.lastRetry ⟨1⟩).bind fun j => (j.entries[(⟨1⟩ : CellId)]?).map fun x =>
    (x.created, x.isValid ⟨1⟩ p.2.store)) = some (false, false) := by decide +kernel
  obtain ⟨j, hj, hx⟩ := Option.bind_eq_some_iff.1 hx
  obtain ⟨x, hx, hx'⟩ := Option.map_eq_some_iff.1 hx
  obtain ⟨hcr, hv⟩ := Prod.mk.inj hx'
  exact ⟨c, hc, r.woken_or_owed (by decide +kernel) (by decide +kernel) hc hb ha hh hrun hj hx hcr hv⟩

end TransactionalMemory
