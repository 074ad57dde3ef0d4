import TransactionalMemory.Proofs.Conflict

namespace TransactionalMemory

variable {β : Type} [Universe β] {Ω : Type}

namespace Phase

def isEnding : Phase β Ω → Bool
  | .busy _ .leaving | .busy _ (.published _ _) | .busy _ (.waking _ _) | .busy _ (.finishing _) => true
  | _ => false

def raised? : Phase β Ω → Option FiberId
  | .busy _ (.running m) =>
    match m.outcome? with
    | some (.interrupt f) => some f
    | _ => none
  | _ => none

end Phase

def Engine.raised? (id : CommitId) (x : Engine β Ω × Move β Ω) : Option FiberId :=
  match x.2 with
  | .advance k => if k = id then (x.1.commits[id]?).bind (·.phase.raised?) else none
  | _ => none

namespace History

def lastCall (id : CommitId) (h : History β Ω) : Option (Engine β Ω × Move β Ω) :=
  h.find? (·.2.calls id)

def Repeats (h : History β Ω) (id : CommitId) : Prop :=
  ∃ e, h.lastCall id = some (e, .runSync id) ∧ e.state? id = some .done

/-- There is a cause for the commit to answer that it was interrupted. -/
def Warrants (h : History β Ω) (id : CommitId) (f : FiberId) : Prop :=
  (∃ x ∈ h, Engine.interrupts id x) ∨ (∃ x ∈ h.sinceCalled id, Engine.raised? id x = some f)

variable {h : History β Ω} {e : Engine β Ω} {m : Move β Ω} {id : CommitId} {f : FiberId}

theorem lastCall_cons (hm : m.calls id = false) : lastCall id ((e, m) :: h) = h.lastCall id := by
  simp [lastCall, hm]

theorem lastCall_of_calls (hm : m.calls id) : lastCall id ((e, m) :: h) = some (e, m) := by
  simp [lastCall, hm]

theorem repeats_cons (hm : m.calls id = false) : Repeats ((e, m) :: h) id ↔ h.Repeats id := by
  simp only [Repeats, lastCall_cons hm]

theorem Warrants.cons (w : h.Warrants id f) (hm : m.calls id = false) :
    Warrants ((e, m) :: h) id f := by
  rcases w with ⟨x, hx, hi⟩ | ⟨x, hx, hr⟩
  · exact .inl ⟨x, List.mem_cons_of_mem _ hx, hi⟩
  · refine .inr ⟨x, ?_, hr⟩
    rw [sinceCalled_cons hm]
    exact List.mem_cons_of_mem _ hx

end History

theorem Exit.result?_conform_eq_interrupt {E A : Ty β} {o : Outcome β} {f : FiberId}
    (h : (o.conform E A).result? = some (.error (.interrupt f))) : o = .interrupt f := by
  cases o with
  | success v => by_cases hv : v.ty = A <;> simp [conform, mismatch, hv, result?] at h
  | failure v => by_cases hv : v.ty = E <;> simp [conform, mismatch, hv, result?] at h
  | halt d => simp [conform, result?] at h
  | interrupt g => simpa [conform, result?] using h
  | retry => simp [conform, result?] at h

namespace Commit

variable {id : CommitId} {c c' : Commit β Ω} {s s' : Store β} {ω : Ω} {call : Call} {p : Point β Ω}
  {woken : List CommitId} {f : FiberId}

structure Parted (c : Commit β Ω) : Prop where
  completed : c.completed → c.signals.state ≠ .running
  ending : c.phase.isEnding → c.signals.state ≠ .running
  leaving : ∀ call, c.phase = .busy call .leaving → c.signals.state = .interrupted

theorem Parted.of_not_ending (h : c.completed → c.signals.state ≠ .running)
    (hp : c.phase.isEnding = false) : c.Parted where
  completed := h
  ending he := by
    rw [hp] at he
    cases he
  leaving call hl := by
    rw [hl] at hp
    cases hp

theorem Transition.parted (h : c.Transition id s ω call p c' s' woken) (hc : c.Parted)
    (hp : c.phase = .busy call p) : c'.Parted := by
  have ending (he : (Phase.busy call p : Phase β Ω).isEnding) : c.signals.state ≠ .running := by
    apply hc.ending
    rw [hp]
    exact he
  cases h with
  | stop hs => exact ⟨hc.completed, fun _ hr => (by cases hs.symm.trans hr), fun _ _ => hs⟩
  | giveUp hs => exact ⟨hc.completed, fun _ hr => (by cases hs.symm.trans hr), by rintro _ ⟨⟩⟩
  | stall => exact ⟨hc.completed, hc.ending, hc.leaving⟩
  | resume | sleep | begin | attempt | launch | step | park | rerun | discard | rest | stir =>
    exact .of_not_ending hc.completed rfl
  | lose _ _ _ hs => exact ⟨hc.completed, fun _ => hs, by rintro _ ⟨⟩⟩
  | conclude | publish => exact ⟨by rintro _ ⟨⟩, by rintro _ ⟨⟩, by rintro _ ⟨⟩⟩
  | leave | finish =>
    rw [finish_fst]
    exact .of_not_ending (fun _ => ending rfl) rfl
  | refuse =>
    rw [drop_fst]
    exact .of_not_ending hc.completed rfl
  | skip | tell | wake => exact ⟨hc.completed, fun _ => ending rfl, by rintro _ ⟨⟩⟩

theorem Transition.interrupt_cases (h : c.Transition id s ω call p c' s' woken) (hc : c.Parted)
    (hp : c.phase = .busy call p) (hr : c'.phase.result? = some (.error (.interrupt f))) :
    c.phase.result? = some (.error (.interrupt f)) ∨ c.signals.state = .interrupted ∨
      c.phase.raised? = some f ∨ c.signals.state = .done ∧ c.phase.result? = none := by
  cases h with
  | skip | tell | wake =>
    rw [hp]
    exact .inl hr
  | finish =>
    rw [finish_fst] at hr
    rw [hp]
    exact .inl hr
  | leave => exact .inr (.inl (hc.leaving call hp))
  | giveUp hs => exact .inr (.inl hs)
  | lose _ _ _ hs =>
    rw [hp]
    cases hd : c.signals.state with
    | running => exact absurd hd hs
    | interrupted => exact .inr (.inl rfl)
    | done => exact .inr (.inr (.inr ⟨rfl, rfl⟩))
  | conclude ho hres | publish ho hres =>
    cases hr
    cases Exit.result?_conform_eq_interrupt hres
    refine .inr (.inr (.inl ?_))
    simp only [hp, Phase.raised?, ho]
  | refuse =>
    rw [drop_fst] at hr
    cases hr
  | stall =>
    rw [hp] at hr
    cases hr
  | stop | resume | sleep | begin | attempt | launch | step | park | rerun | discard | rest | stir =>
    cases hr

theorem Transition.same_call (h : c.Transition id s ω call p c' s' woken)
    (hp : c.phase = .busy call p) {call' : Call} {q : Point β Ω} (hq : c'.phase = .busy call' q) :
    call = call' ∧ c'.completed = c.completed := by
  cases h with
  | stop | resume | begin | giveUp | attempt | launch | step | park | rerun | discard | lose
  | conclude | publish | skip | tell | wake | stir =>
    cases hq
    exact ⟨rfl, rfl⟩
  | stall =>
    cases hp.symm.trans hq
    exact ⟨rfl, rfl⟩
  | leave | finish =>
    rw [finish_fst] at hq
    cases hq
  | refuse =>
    rw [drop_fst] at hq
    cases hq
  | sleep | rest => cases hq

def Misled (c : Commit β Ω) : Prop :=
  c.signals.state = .done ∧ match c.phase with
    | .busy .sync .starting | .busy .sync .launching | .busy .sync (.running _) => True
    | .idle | .answered .wouldSuspend => True
    | .busy .sync (.finishing r) | .answered (.ready r) => r = .error (.interrupt c.fiber)
    | _ => False

theorem Transition.misled (h : c.Transition id s ω call p c' s' woken) (hc : c.Misled)
    (hp : c.phase = .busy call p) : c'.Misled := by
  obtain ⟨hs, hc⟩ := hc
  rw [hp] at hc
  obtain rfl : call = .sync := by
    cases call with
    | poll w => cases hc
    | sync => rfl
  cases h with
  | stop | begin | leave | skip | tell | wake | rest | stir => cases hc
  | giveUp hi => cases hi.symm.trans hs
  | conclude _ _ _ _ hr | publish _ _ _ hr => cases hr.symm.trans hs
  | attempt | launch | step | rerun | discard => exact ⟨hs, trivial⟩
  | lose => exact ⟨hs, rfl⟩
  | refuse =>
    rw [drop_fst]
    exact ⟨hs, trivial⟩
  | finish =>
    rw [finish_fst]
    exact ⟨hs, hc⟩

end Commit

section

variable {h : History β Ω} {e : Engine β Ω} {id : CommitId} {c : Commit β Ω} {f : FiberId}

theorem Run.parted (r : Run h e) (hc : e.commits[id]? = some c) : c.Parted := by
  refine r.each (P := fun _ _ _ c => c.Parted) ?_ ?_ ?_ hc
  · intros
    exact .of_not_ending nofun rfl
  · intro h e m i c c' _ _ _ ih hm
    cases hm with
    | keep | setFiber | setScheduler | setWatched => exact ⟨ih.completed, ih.ending, ih.leaving⟩
    | poll | refuse | runSync | settle => exact .of_not_ending ih.completed rfl
    | interrupt hr => exact ⟨fun _ => nofun, fun _ => nofun, fun _ _ => rfl⟩
    | drop _ hi =>
      rw [Commit.drop_fst]
      exact ⟨ih.completed, ih.ending, ih.leaving⟩
    | turn hp ht => exact ht.parted ih hp
  · intro h e i c g hg ih
    refine ⟨?_, ?_, ?_⟩
    all_goals simp only [hg]
    · exact ih.completed
    · exact ih.ending
    · exact ih.leaving

theorem Run.calling (r : Run h e) (hc : e.commits[id]? = some c) {call : Call} {p : Point β Ω}
    (hp : c.phase = .busy call p) : ∃ e' m, h.lastCall id = some (e', m) ∧
      (call = .sync → m = .runSync id ∧
        (c.completed → c.signals.state = .done → e'.state? id = some .done)) := by
  refine r.each (P := fun h _ i c => ∀ call p, c.phase = .busy call p → ∃ e' m,
    h.lastCall i = some (e', m) ∧ (call = .sync → m = .runSync i ∧
      (c.completed → c.signals.state = .done → e'.state? i = some .done))) ?_ ?_ ?_ hc call p hp
  · intro _ _ _ _ _ _ _ _ call p hp
    cases hp
  · intro h e m i c c' r hm hc ih hmv call p hp
    cases hmv with
    | keep _ hn =>
      rw [History.lastCall_cons hn]
      exact ih call p hp
    | setScheduler | setWatched =>
      rw [History.lastCall_cons rfl]
      exact ih call p hp
    | interrupt =>
      rw [History.lastCall_cons rfl]
      obtain ⟨e', m, hl, hs⟩ := ih call p hp
      exact ⟨e', m, hl, fun hcall => ⟨(hs hcall).1, nofun⟩⟩
    | setFiber _ hi => cases hi.symm.trans hp
    | @poll _ w =>
      rw [History.lastCall_of_calls (m := .poll i w) (decide_eq_true rfl)]
      cases hp
      exact ⟨e, _, rfl, nofun⟩
    | runSync =>
      rw [History.lastCall_of_calls (m := .runSync i) (decide_eq_true rfl)]
      refine ⟨e, _, rfl, fun _ => ⟨rfl, fun _ hs => ?_⟩⟩
      rw [Engine.state?_eq .calm hc]
      exact congrArg some hs
    | refuse | settle => cases hp
    | drop _ hi =>
      rw [Commit.drop_fst] at hp
      cases hi.symm.trans hp
    | @turn _ _ call' q woken hq ht =>
      rw [History.lastCall_cons rfl]
      obtain ⟨e', m, hl, hs⟩ := ih call' q hq
      obtain ⟨rfl, hcomp⟩ := ht.same_call hq hp
      refine ⟨e', m, hl, fun hcall => ⟨(hs hcall).1, fun hcomp' hdone => ?_⟩⟩
      rw [hcomp] at hcomp'
      refine (hs hcall).2 hcomp' ?_
      rcases ht.state with h | ⟨h, -⟩
      · rw [← h, hdone]
      · exact absurd h ((r.parted hc).completed hcomp')
  · intro h e i c g hg ih call p hp
    simp only [hg]
    exact ih call p hp

theorem Run.lastCall_of_none (r : Run h e) (hc : e.commits[id]? = none) : h.lastCall id = none := by
  induction r with
  | start ω => rfl
  | @next h e m r hm ih =>
    cases hd : e.commits[id]? with
    | none =>
      rw [History.lastCall_cons, ih hd]
      cases m with
      | poll k | runSync k =>
        refine decide_eq_false ?_
        rintro rfl
        obtain ⟨c, hc⟩ := Engine.exists_of_isFree hm
        cases hd.symm.trans hc
      | _ => rfl
    | some c =>
      obtain ⟨_, _, -, -, h⟩ := Engine.moved hm hd (r.tracked.ne_nextCommit hd)
      cases hc.symm.trans h

theorem Run.misled (r : Run h e) (hc : e.commits[id]? = some c) (hr : h.Repeats id) : c.Misled := by
  refine r.each (P := fun h _ i c => h.Repeats i → c.Misled) ?_ ?_ ?_ hc hr
  · rintro h e t E A f s r ⟨e', hl, -⟩
    rw [History.lastCall_cons rfl, r.lastCall_of_none r.tracked.nextCommit_eq_none] at hl
    cases hl
  · intro h e m i c c' r hm hc ih hmv hr
    cases hmv with
    | keep _ hn => exact ih ((History.repeats_cons hn).1 hr)
    | setScheduler | setWatched => exact ih ((History.repeats_cons rfl).1 hr)
    | setFiber _ hi =>
      obtain ⟨hs, -⟩ := ih ((History.repeats_cons rfl).1 hr)
      refine ⟨hs, ?_⟩
      simp only [hi]
    | @poll _ w | @refuse _ w =>
      obtain ⟨e', hl, -⟩ := hr
      rw [History.lastCall_of_calls (m := .poll i w) (decide_eq_true rfl)] at hl
      cases hl
    | runSync =>
      obtain ⟨e', hl, hs⟩ := hr
      rw [History.lastCall_of_calls (m := .runSync i) (decide_eq_true rfl)] at hl
      cases hl
      rw [Engine.state?_eq .calm hc] at hs
      exact ⟨Option.some.inj hs, trivial⟩
    | settle => exact ⟨(ih ((History.repeats_cons rfl).1 hr)).1, trivial⟩
    | interrupt hs => cases hs.symm.trans (ih ((History.repeats_cons rfl).1 hr)).1
    | drop _ hi =>
      obtain ⟨hs, -⟩ := ih ((History.repeats_cons rfl).1 hr)
      rw [Commit.drop_fst]
      refine ⟨hs, ?_⟩
      simp only [hi]
    | turn hp ht => exact ht.misled (ih ((History.repeats_cons rfl).1 hr)) hp
  · intro h e i c g hg ih hr
    obtain ⟨hs, hc⟩ := ih hr
    exact ⟨hg.trans hs, hc⟩

theorem Run.interrupted_of_state (r : Run h e) (hc : e.commits[id]? = some c)
    (hs : c.signals.state = .interrupted) : ∃ x ∈ h, Engine.interrupts id x := by
  have hi := (r.countP id).1
  rw [Engine.state?_eq .calm hc, hs, if_pos rfl] at hi
  exact List.countP_pos_iff.1 (by omega)

/-- An interrupt that a commit has come to has one of three causes. -/
theorem Run.warrants (r : Run h e) (hc : e.commits[id]? = some c)
    (hr : c.phase.result? = some (.error (.interrupt f))) : h.Warrants id f ∨ h.Repeats id := by
  refine r.each (P := fun h _ i c => c.phase.result? = some (.error (.interrupt f)) →
    h.Warrants i f ∨ h.Repeats i) ?_ ?_ (fun _ ih => ih) hc hr
  · intros
    contradiction
  · intro h e m i c c' r hm hc ih hmv hr
    have on (hn : m.calls i = false) (w : h.Warrants i f ∨ h.Repeats i) :
        History.Warrants ((e, m) :: h) i f ∨ History.Repeats ((e, m) :: h) i :=
      w.imp (·.cons hn) (History.repeats_cons hn).2
    cases hmv with
    | keep _ hn => exact on hn (ih hr)
    | setFiber | setScheduler | setWatched | interrupt => exact on rfl (ih hr)
    | poll | refuse | runSync | settle => cases hr
    | drop =>
      rw [Commit.drop_fst] at hr
      exact on rfl (ih hr)
    | @turn _ _ call p woken hp ht =>
      rcases ht.interrupt_cases (r.parted hc) hp hr with h | h | h | ⟨hs, hn⟩
      · exact on rfl (ih h)
      · exact on rfl (.inl (.inl (r.interrupted_of_state hc h)))
      · refine .inl (.inr ⟨(e, .advance i), ?_, by simpa [Engine.raised?, hc] using h⟩)
        rw [History.sinceCalled_cons rfl]
        exact List.mem_cons_self
      · -- Only a synchronous run begins on a commit that has completed.
        have hd : c.completed := ((r.settled hc) hs).resolve_right (by simp [hn])
        obtain ⟨e', m, hl, hsync⟩ := r.calling hc hp
        cases call with
        | poll w => cases ((r.tidy hc).polled w p hp).symm.trans hd
        | sync =>
          obtain ⟨rfl, hdone⟩ := hsync rfl
          exact on rfl (.inr ⟨e', hl, hdone hd hs⟩)

/-- An interrupt is answered only with cause, but for a synchronous run that begins when the commit is
done. Such a run answers nothing else, unless it has to wait. -/
theorem Run.interrupt_reported (r : Run h e) {a : Answer β} (ha : e.answer? id = some a) :
    (∀ f, a = .ready (.error (.interrupt f)) → h.Warrants id f ∨ h.Repeats id) ∧
    (h.Repeats id → a = .wouldSuspend ∨
      ∃ c, e.commits[id]? = some c ∧ a = .ready (.error (.interrupt c.fiber))) := by
  obtain ⟨c, hc⟩ : ∃ c, e.commits[id]? = some c := by
    cases hc : e.commits[id]? with
    | none => simp [Engine.answer?, hc] at ha
    | some c => exact ⟨c, rfl⟩
  have hp := Engine.phase_of_answer? hc ha
  constructor
  · rintro f rfl
    exact r.warrants hc (by rw [hp]; rfl)
  · intro hr
    obtain ⟨-, hm⟩ := r.misled hc hr
    rw [hp] at hm
    cases a with
    | pending => cases hm
    | wouldSuspend => exact .inl rfl
    | ready res => exact .inr ⟨c, hc, congrArg _ hm⟩

end

/-- A commit answers a poll with its value, and is then run once more, synchronously. -/
def secondRun : List (Move Scenario.Base Unit) :=
  let one : Tx Unit (.unit : Ty Scenario.Base) .never .nat := Tx.succeed (1 : Nat)
  [.commit one.tree .never .nat none, .poll ⟨1⟩ .thread] ++ List.replicate 7 (.advance ⟨1⟩) ++
    [.settle ⟨1⟩, .runSync ⟨1⟩] ++ List.replicate 5 (.advance ⟨1⟩)

theorem interrupt_reported_secondRun :
    let p := Engine.play { world := () } [] secondRun
    ∃ a, p.2.answer? ⟨1⟩ = some a ∧ p.1.Repeats ⟨1⟩ ∧
      (a = .wouldSuspend ∨
        ∃ c, p.2.commits[(⟨1⟩ : CommitId)]? = some c ∧ a = .ready (.error (.interrupt c.fiber))) := by
  intro p
  have r : Run p.1 p.2 := (Run.start ()).play (by decide +kernel)
  have ha : p.2.answer? ⟨1⟩ = some (.ready (.error (.interrupt ⟨1⟩))) := by
    with_unfolding_all rfl
  have hr : p.1.Repeats ⟨1⟩ := by
    obtain ⟨e, he⟩ : ∃ e, p.1.lastCall ⟨1⟩ = some (e, .runSync ⟨1⟩) := ⟨_, by with_unfolding_all rfl⟩
    have hs : (p.1.lastCall ⟨1⟩).bind (·.1.state? ⟨1⟩) = some .done := by decide +kernel
    rw [he] at hs
    exact ⟨e, he, hs⟩
  exact ⟨_, ha, hr, (r.interrupt_reported ha).2 hr⟩

theorem not_warrants_secondRun :
    let p := Engine.play { world := () } [] secondRun
    Run p.1 p.2 ∧ p.2.answer? ⟨1⟩ = some (.ready (.error (.interrupt ⟨1⟩))) ∧
      ∀ f, ¬ p.1.Warrants ⟨1⟩ f := by
  intro p
  refine ⟨(Run.start ()).play (by decide +kernel), by with_unfolding_all rfl, ?_⟩
  have hi : p.1.any (Engine.interrupts ⟨1⟩) = false := by decide +kernel
  have hr : (p.1.sinceCalled ⟨1⟩).any (fun x => (Engine.raised? ⟨1⟩ x).isSome) = false := by
    decide +kernel
  rintro f (⟨x, hx, h⟩ | ⟨x, hx, h⟩)
  · exact List.any_eq_false.1 hi x hx h
  · exact List.any_eq_false.1 hr x hx (by simp [h])

end TransactionalMemory
