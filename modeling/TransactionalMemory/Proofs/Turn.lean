import TransactionalMemory.Commit.Basic

namespace TransactionalMemory

variable {β : Type} [Universe β] {Ω : Type}

theorem Exit.conform_eq_retry {e a : Ty β} {o : Outcome β} : o.conform e a = .retry ↔ o = .retry := by
  cases o with
  | success v => by_cases h : v.ty = a <;> simp [conform, mismatch, h]
  | failure v => by_cases h : v.ty = e <;> simp [conform, mismatch, h]
  | halt d => simp [conform]
  | interrupt f => simp [conform]
  | retry => simp [conform]

theorem Exit.result?_eq_none {ε α : Type} {o : Exit ε α} : o.result? = none ↔ o = .retry := by
  cases o <;> simp [result?]

namespace Commit

def heard (c : Commit β Ω) : Commit β Ω :=
  if c.isAlive then { c with signals := c.signals.notify.2 } else c

def won (c : Commit β Ω) : Commit β Ω :=
  { c with signals := { c.signals with state := .done, waker := none } }

inductive Hears (c : Commit β Ω) : Commit β Ω → Prop
  | calm : Hears c c
  | heard : Hears c c.heard

theorem Hears.frame {c d : Commit β Ω} (h : c.Hears d) :
    ∃ g, d = { c with signals := g } ∧ g.state = c.signals.state := by
  cases h with
  | calm => exact ⟨c.signals, rfl, rfl⟩
  | heard =>
    unfold Commit.heard
    split
    · refine ⟨_, rfl, ?_⟩
      by_cases hr : c.signals.state = .running <;> simp [Signals.notify, hr]
    · exact ⟨c.signals, rfl, rfl⟩

variable (id : CommitId) (c : Commit β Ω) (s : Store β) (ω : Ω)

/-- What a turn can come to: the commit, the cells and the callbacks to schedule it leaves behind. -/
inductive Transition : Call → Point β Ω → Commit β Ω → Store β → List CommitId → Prop
  | stop {call : Call} : c.signals.state = .interrupted →
    Transition call .top (c.goto call .leaving) s []
  | stall {w : Waker} : c.signals.state = .done → c.suspended.isSome → c.rerun = false →
    Transition (.poll w) .top { c with signals := c.signals.register w } s []
  | resume {w : Waker} : c.signals.state = .running → c.suspended.isSome → c.rerun = false →
    c.signals.notified → Transition (.poll w) .top
      ({ c with signals := (c.signals.register w).hush, rerun := false }.goto (.poll w) .starting) s []
  | sleep {w : Waker} : c.signals.state = .running → c.suspended.isSome → c.rerun = false →
    c.signals.notified = false → Transition (.poll w) .top
      ({ c with signals := c.signals.register w }.answer .pending) s []
  | begin {call : Call} : c.signals.state ≠ .interrupted →
    (call = .sync ∨ c.suspended = none ∨ c.rerun) →
    Transition call .top ({ c with rerun := false }.goto call .starting) s []
  | leave {call : Call} : Transition call .leaving
      (c.finish call s (.error (.interrupt c.fiber))).1
      (c.finish call s (.error (.interrupt c.fiber))).2 []
  | giveUp {call : Call} : c.signals.state = .interrupted →
    Transition call .starting (c.goto call (.finishing (.error (.interrupt c.fiber)))) s []
  | attempt {call : Call} : c.signals.state ≠ .interrupted →
    Transition call .starting (c.goto call .launching) s []
  | launch {call : Call} :
    Transition call .launching (c.goto call (.running (.start c.tree .unit))) s []
  | step {call : Call} {m : Machine β Ω} : m.outcome? = none →
    Transition call (.running m) (c.goto call (.running (m.step c.fiber s ω).1))
      (m.step c.fiber s ω).2.1 []
  | refuse {m : Machine β Ω} : m.outcome? = some .retry → m.journal.isValid s →
    Transition .sync (.running m) ((c.drop s).1.answer .wouldSuspend) (c.drop s).2 []
  | park {w : Waker} {m : Machine β Ω} : m.outcome? = some .retry → m.journal.isValid s →
    Transition (.poll w) (.running m)
      ({ c with signals := c.signals.hush.register w, suspended := none }.goto (.poll w)
        (.parking m.journal c.signals.state)) (c.follow id s m.journal).2 []
  | rerun {call : Call} {m : Machine β Ω} : m.outcome? = some .retry → m.journal.isValid s = false →
    Transition call (.running m) (c.goto call .starting) s []
  | discard {call : Call} {m : Machine β Ω} {o : Outcome β} : m.outcome? = some o → o ≠ .retry →
    m.journal.isValid s = false → Transition call (.running m) (c.goto call .starting) s []
  | lose {call : Call} {m : Machine β Ω} {o : Outcome β} : m.outcome? = some o → o ≠ .retry →
    m.journal.isValid s → c.signals.state ≠ .running →
    Transition call (.running m) (c.goto call (.finishing (.error (.interrupt c.fiber)))) s []
  | conclude {call : Call} {m : Machine β Ω} {o : Outcome β} {r : Result β} :
    m.outcome? = some o → (o.conform c.errorTy c.valueTy).result? = some r →
    m.journal.isValid s → m.journal.isChanged = false → c.signals.state = .running →
    Transition call (.running m) (c.won.goto call (.published r [])) s []
  | publish {call : Call} {m : Machine β Ω} {o : Outcome β} {r : Result β} {woken : Waiting}
      {s' : Store β} {j : Journal β} :
    m.outcome? = some o → (o.conform c.errorTy c.valueTy).result? = some r →
    m.journal.isChanged → c.signals.state = .running → m.journal.publish s = .ok (woken, s', j) →
    Transition call (.running m) (c.won.goto call (.published r (woken.toList.map (·.2)))) s' []
  | skip {call : Call} {r : Result β} :
    Transition call (.published r []) (c.goto call (.finishing r)) s []
  | tell {call : Call} {r : Result β} {woken : List CommitId} : woken ≠ [] →
    Transition call (.published r woken) (c.goto call (.waking r woken)) s []
  | wake {call : Call} {r : Result β} {woken : List CommitId} :
    Transition call (.waking r woken) (c.goto call (.finishing r)) s woken
  | finish {call : Call} {r : Result β} :
    Transition call (.finishing r) (c.finish call s r).1 (c.finish call s r).2 []
  | rest {call : Call} {j : Journal β} : j.isValid s → Transition call (.parking j .running)
      ({ c with suspended := some j, rerun := false }.answer .pending) s []
  | stir {call : Call} {j : Journal β} {seen : State} : (j.isValid s = false ∨ seen ≠ .running) →
    Transition call (.parking j seen)
      ({ c with suspended := some j, rerun := !j.isValid s }.goto call .top) s []

variable {id c s ω}

theorem Transition.eq_waking {c' : Commit β Ω} {s' : Store β} {call : Call} {p : Point β Ω}
    {woken : List CommitId} (h : Transition id c s ω call p c' s' woken) (hw : woken ≠ []) :
    ∃ r, p = .waking r woken := by
  cases h with
  | wake => exact ⟨_, rfl⟩
  | _ => exact absurd rfl hw

theorem transition_look (call : Call) :
    Transition id c s ω call .top (c.look call s ω).commit (c.look call s ω).store
      (c.look call s ω).woken := by
  unfold look
  by_cases hi : c.signals.state = .interrupted
  · simpa only [hi, if_true] using Transition.stop hi
  · simp only [hi, if_false]
    cases call with
    | sync => exact .begin hi (.inl rfl)
    | poll w =>
      by_cases hs : (c.suspended.isSome && !c.rerun) = true
      · have hs' := hs
        simp only [Bool.and_eq_true, Bool.not_eq_true'] at hs'
        simp only [hs]
        cases hr : c.signals.state with
        | interrupted => exact absurd hr hi
        | done => simpa [Signals.register, hr] using Transition.stall hr hs'.1 hs'.2
        | running =>
          cases hn : c.signals.notified with
          | true =>
            simpa [Signals.register, hr, hn] using Transition.resume hr hs'.1 hs'.2 hn
          | false => simpa [Signals.register, hr, hn] using Transition.sleep hr hs'.1 hs'.2 hn
      · have hb : c.suspended = none ∨ c.rerun = true := by
          cases h : c.suspended <;> simp_all
        simp only [Bool.not_eq_true] at hs
        simp only [hs]
        exact .begin hi (.inr hb)

theorem transition_conclude {call : Call} {m : Machine β Ω} {o : Outcome β}
    (ho : m.outcome? = some o) (hr : o ≠ .retry) :
    let t := c.conclude call s ω (o.conform c.errorTy c.valueTy) m.journal
    Transition id c s ω call (.running m) t.commit t.store t.woken := by
  obtain ⟨r, hres⟩ : ∃ r, (o.conform c.errorTy c.valueTy).result? = some r := by
    rw [← Option.isSome_iff_exists, Option.isSome_iff_ne_none, ne_eq, Exit.result?_eq_none,
      Exit.conform_eq_retry]
    exact hr
  simp only [conclude, Journal.analyze]
  cases hv : m.journal.isValid s with
  | false => simpa [hv] using Transition.discard ho hr hv
  | true =>
    by_cases hs : c.signals.state = .running
    · cases hw : m.journal.isChanged with
      | false => simpa [hs, Signals.finish, hres, won] using Transition.conclude ho hres hv hw hs
      | true =>
        have hpub : m.journal.publish s = .ok (Journal.waitingFor s (m.journal.written s),
            { s.overlay (m.journal.written s) with now := s.now + 1 }, m.journal.settled) := by
          simp [Journal.publish, hv]
        simpa [hs, Signals.finish, hres, hpub, won] using Transition.publish ho hres hw hs hpub
    · cases hw : m.journal.isChanged <;>
        simpa [hs, Signals.finish] using Transition.lose ho hr hv hs

theorem transition_run (call : Call) (p : Point β Ω) :
    Transition id c s ω call p (c.run id call s ω p).commit (c.run id call s ω p).store
      (c.run id call s ω p).woken := by
  cases p with
  | top => exact transition_look call
  | leaving => exact .leave
  | starting =>
    by_cases h : c.signals.state = .interrupted
    · simpa [run, h] using Transition.giveUp h
    · simpa [run, h] using Transition.attempt h
  | launching => exact .launch
  | running m =>
    cases ho : m.outcome? with
    | none => simpa [run, ho] using Transition.step ho
    | some o =>
      by_cases hr : o = .retry
      · subst hr
        cases hv : m.journal.isValid s with
        | false => simpa [run, ho, hv, Exit.conform] using Transition.rerun ho hv
        | true =>
          cases call with
          | sync => simpa [run, ho, hv, Exit.conform, suspend] using Transition.refuse ho hv
          | poll w =>
            simpa [run, ho, hv, Exit.conform, suspend, Signals.hush, Signals.register]
              using Transition.park ho hv
      · have hr' := hr
        rw [← Exit.conform_eq_retry (e := c.errorTy) (a := c.valueTy)] at hr'
        -- With `hr'` in sight the last branch of the match is the one that is left.
        simp only [run, ho]
        exact transition_conclude ho hr
  | published r woken =>
    cases woken with
    | nil => exact .skip
    | cons k woken => exact .tell (List.cons_ne_nil k woken)
  | waking r woken => exact .wake
  | finishing r => exact .finish
  | parking j seen =>
    by_cases h : j.isValid s = true ∧ seen = .running
    · obtain ⟨hv, rfl⟩ := h
      simpa [run, hv] using Transition.rest hv
    · have h' : j.isValid s = false ∨ seen ≠ .running := by
        cases hv : j.isValid s with
        | false => exact .inl rfl
        | true => exact .inr fun hs => h ⟨hv, hs⟩
      simpa [run, h] using Transition.stir h'

end Commit
end TransactionalMemory
