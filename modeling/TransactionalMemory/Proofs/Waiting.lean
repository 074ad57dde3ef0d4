import TransactionalMemory.Proofs.Journals

namespace TransactionalMemory

variable {β : Type} [Universe β] {Ω : Type}

namespace Phase

def isAtRest : Phase β Ω → Bool
  | .idle | .answered _ | .busy _ .top | .busy _ .leaving | .busy _ (.parking _ _) => true
  | _ => false

def isParking : Phase β Ω → Bool
  | .busy _ (.parking _ _) => true
  | _ => false

variable {p : Phase β Ω}

theorem isAtRest_of_not_busy (h : p.isBusy = false) : p.isAtRest := by
  cases p with
  | busy => cases h
  | idle | answered => rfl

theorem isParking_of_not_busy (h : p.isBusy = false) : p.isParking = false := by
  cases p with
  | busy => cases h
  | idle | answered => rfl

end Phase

namespace Commit

def watching (c : Commit β Ω) : Option (Journal β) :=
  match c.phase with
  | .busy _ (.parking j _) => some j
  | _ => c.suspended

/-- The commit can still be run to a result of its own. -/
def isLive (c : Commit β Ω) : Bool := c.held && !c.completed

structure Tidy (c : Commit β Ω) : Prop where
  held : c.phase.isBusy → c.held
  polled : ∀ w p, c.phase = .busy (.poll w) p → c.completed = false
  called : ∀ call j seen, c.phase = .busy call (.parking j seen) → ∃ w, call = .poll w
  live : c.watching.isSome → c.isLive
  answer : ∀ a, c.phase = .answered a → (c.suspended.isSome ↔ a = .pending)
  fresh : ∀ m k d, c.phase.attempt? = some m → c.suspended = some k → m.journal.Creates d →
    k.entries[d]? = none

variable {id : CommitId} {c c' : Commit β Ω} {s s' : Store β} {ω : Ω} {call : Call} {p q : Point β Ω}
  {woken : List CommitId}

theorem watching_eq (h : c.phase.isParking = false) : c.watching = c.suspended := by
  unfold watching
  split
  · rename_i hp
    rw [hp] at h
    cases h
  · rfl

theorem watching_of_idle (h : c.phase = .idle) : c.watching = c.suspended := by
  simp only [watching, h]

theorem Tidy.of_not_busy (hb : c.phase.isBusy = false) (hl : c.suspended.isSome → c.isLive)
    (ha : ∀ a, c.phase = .answered a → (c.suspended.isSome ↔ a = .pending)) : c.Tidy where
  held h := by
    rw [hb] at h
    cases h
  polled w p hp := by simp [hp, Phase.isBusy] at hb
  called call j seen hp := by simp [hp, Phase.isBusy] at hb
  live := by
    rw [watching_eq (Phase.isParking_of_not_busy hb)]
    exact hl
  answer := ha
  fresh m k d hm := by
    cases hp : c.phase with
    | busy => simp [hp, Phase.isBusy] at hb
    | idle | answered =>
      rw [hp] at hm
      cases hm

theorem Tidy.of_suspended_none (h : c.suspended = none) (hb : c.phase.isBusy = false)
    (ha : c.phase ≠ .answered .pending) : c.Tidy := by
  apply Tidy.of_not_busy hb
  · rw [h]
    exact nofun
  · rintro a hp
    simp only [h, Option.isSome_none, Bool.false_eq_true, false_iff]
    rintro rfl
    exact ha hp

theorem Tidy.goto (h : c.Tidy) (hp : c.phase = .busy call p) (hn : c.phase.isParking = false)
    (hq : c'.phase = .busy call q) (hn' : c'.phase.isParking = false)
    (hr : c'.phase.attempt? = none) (hh : c'.held = c.held) (hd : c'.completed = c.completed)
    (hs : c'.suspended = c.suspended) : c'.Tidy where
  held _ := by
    rw [hh]
    exact h.held (by rw [hp]; rfl)
  polled w p' hq' := by
    rw [hq] at hq'
    cases hq'
    rw [hd]
    exact h.polled w p hp
  called call' j seen hq' := by
    rw [hq'] at hn'
    cases hn'
  live hw := by
    rw [watching_eq hn', hs] at hw
    rw [isLive, hh, hd]
    exact h.live (by rwa [watching_eq hn])
  answer a hq' := by
    rw [hq] at hq'
    cases hq'
  fresh m k d hm := by
    rw [hr] at hm
    cases hm

theorem Tidy.run (h : c.Tidy) (hp : c.phase = .busy call p) (hn : c.phase.isParking = false)
    {m : Machine β Ω}
    (hf : ∀ k d, c.suspended = some k → m.journal.Creates d → k.entries[d]? = none) :
    (c.goto call (.running m)).Tidy where
  held _ := h.held (by rw [hp]; rfl)
  polled w p' hq := by
    cases hq
    exact h.polled w p hp
  called call' j seen hq := by cases hq
  live hw := by
    apply h.live
    rwa [watching_eq hn]
  answer a hq := by cases hq
  fresh m' k d hm := by
    cases hm
    exact hf k d

theorem Transition.tidy (h : c.Transition id s ω call p c' s' woken) (hc : c.Tidy)
    (hp : c.phase = .busy call p) (hs : s.Sound) (hk : c.Known s) : c'.Tidy := by
  have hheld : c.held := hc.held (by rw [hp]; rfl)
  cases h with
  | stop | resume | begin | giveUp | attempt | rerun | discard | lose | conclude | publish | skip
  | tell | wake => exact hc.goto hp (by rw [hp]; rfl) rfl rfl rfl rfl rfl rfl
  | stall => exact ⟨hc.held, hc.polled, hc.called, hc.live, hc.answer, hc.fresh⟩
  | sleep hr hsus hn hnot =>
    apply Tidy.of_not_busy rfl
    · intro hw
      apply hc.live
      rwa [watching_eq (by rw [hp]; rfl)]
    · intro a ha
      cases ha
      exact ⟨fun _ => rfl, fun _ => hsus⟩
  | launch =>
    apply hc.run hp (by rw [hp]; rfl)
    rintro k d _ ⟨x, hx, -⟩
    simp [Machine.start] at hx
  | @step _ m ho =>
    apply hc.run hp (by rw [hp]; rfl)
    intro k d hsus hd
    rcases Machine.logged.creates hs hd with hd | hd
    · exact hc.fresh m k d (by rw [hp]; rfl) hsus hd
    · cases hx : k.entries[d]? with
      | none => rfl
      | some x => exact absurd (hk.1 k hsus d x hx).cell hd
  | leave | finish =>
    rw [finish_fst]
    exact .of_suspended_none rfl rfl (by rintro ⟨⟩)
  | refuse =>
    rw [drop_fst]
    exact .of_suspended_none rfl rfl (by rintro ⟨⟩)
  | @park w m ho hv =>
    have hl : c.completed = false := hc.polled w _ hp
    refine ⟨fun _ => hheld, fun _ _ _ => hl, ?_, ?_, nofun, nofun⟩
    · intro call j seen hq
      cases hq
      exact ⟨w, rfl⟩
    · intro _
      simp only [isLive, goto, hheld, hl]
      rfl
  | rest hv =>
    have hw : c.watching.isSome := by simp only [watching, hp, Option.isSome_some]
    apply Tidy.of_not_busy rfl
    · intro _
      exact hc.live hw
    · intro a ha
      cases ha
      exact ⟨fun _ => rfl, fun _ => rfl⟩
  | stir hv =>
    have hw : c.watching.isSome := by simp only [watching, hp, Option.isSome_some]
    refine ⟨fun _ => hheld, ?_, nofun, fun _ => hc.live hw, nofun, nofun⟩
    intro w p' hq
    cases hq
    exact hc.polled w _ hp

end Commit

def Engine.Tidy (e : Engine β Ω) : Prop :=
  ∀ ⦃id : CommitId⦄ ⦃c : Commit β Ω⦄, e.commits[id]? = some c → c.Tidy

theorem Run.tidy {h : History β Ω} {e : Engine β Ω} (r : Run h e) : e.Tidy := by
  intro id c hc
  refine r.each (P := fun _ _ _ c => c.Tidy) ?_ ?_ ?_ hc
  · intros
    exact .of_suspended_none rfl rfl nofun
  · intro h e m i c c' r _ hc ht hm
    have he := r.tracked
    cases hm with
    | keep => exact ht
    | setScheduler | setWatched | interrupt | setFiber =>
      exact ⟨ht.held, ht.polled, ht.called, ht.live, ht.answer, ht.fresh⟩
    | poll hh hi hd =>
      refine ⟨fun _ => hh, fun _ _ _ => hd, nofun, fun _ => ?_, nofun, nofun⟩
      simp only [Commit.isLive, Commit.goto, hh, hd]
      rfl
    | runSync hh hi =>
      refine ⟨fun _ => hh, nofun, nofun, ?_, nofun, nofun⟩
      intro hw
      exact ht.live (by rw [Commit.watching_of_idle hi]; exact hw)
    | @settle _ a ha =>
      apply Commit.Tidy.of_not_busy rfl
      · intro hw
        exact ht.live (by rw [Commit.watching_eq (by rw [ha]; rfl)]; exact hw)
      · exact nofun
    | refuse hh hi hd =>
      have hn : c.suspended = none := by
        cases hs : c.suspended with
        | none => rfl
        | some j =>
          have := ht.live (by rw [Commit.watching_of_idle hi, hs]; rfl)
          simp [Commit.isLive, hd] at this
      exact .of_suspended_none hn rfl (by rintro ⟨⟩)
    | drop _ hi =>
      rw [Commit.drop_fst]
      apply Commit.Tidy.of_suspended_none rfl
      · rw [hi]
        rfl
      · rw [hi]
        exact nofun
    | turn hp h => exact h.tidy ht hp he.sound (he.known i c hc)
  · intro _ _ _ _ _ _ ht
    exact ⟨ht.held, ht.polled, ht.called, ht.live, ht.answer, ht.fresh⟩

namespace Phase

def retried? : Phase β Ω → Option (Journal β)
  | .busy _ (.running m) =>
    match m.outcome? with
    | some .retry => some m.journal
    | _ => none
  | _ => none

def answer? : Phase β Ω → Option (Answer β)
  | .answered a => some a
  | _ => none

end Phase

namespace Engine

variable {e : Engine β Ω} {m : Move β Ω} {id : CommitId} {c : Commit β Ω}

def retried? (id : CommitId) (x : Engine β Ω × Move β Ω) : Option (Journal β) :=
  match x.2 with
  | .advance k => if k = id then (x.1.commits[id]?).bind (·.phase.retried?) else none
  | _ => none

theorem retried?_of_ne (h : m ≠ .advance id) : retried? id (e, m) = none := by
  unfold retried?
  split
  · rename_i k hk
    rw [if_neg]
    rintro rfl
    exact h hk
  · rfl

theorem retried?_advance (hc : e.commits[id]? = some c) :
    retried? id (e, .advance id) = c.phase.retried? := by
  simp [retried?, hc]

theorem answer?_eq (hc : e.commits[id]? = some c) : e.answer? id = c.phase.answer? := by
  simp only [answer?, hc]
  cases c.phase <;> rfl

end Engine

namespace History

def Called (h : History β Ω) (id : CommitId) : Prop := ∃ x ∈ h, x.2.calls id

instance {h : History β Ω} {id : CommitId} : Decidable (Called h id) :=
  inferInstanceAs (Decidable (∃ x ∈ h, _))

def answered (id : CommitId) : History β Ω → Option (Answer β)
  | [] => none
  | x :: h => (x.1.answer? id).or (answered id h)

/-- What the latest call of a commit has answered, if none is under way. -/
def lastAnswer (h : History β Ω) (e : Engine β Ω) (id : CommitId) : Option (Answer β) :=
  (e.answer? id).or (answered id h)

def lastRetry (id : CommitId) : History β Ω → Option (Journal β)
  | [] => none
  | x :: h => (Engine.retried? id x).or (lastRetry id h)

end History

theorem Commit.Tidy.suspended_iff {c : Commit β Ω} {a : Answer β} (h : c.Tidy)
    (ha : c.phase = .answered a) : c.suspended.isSome ↔ c.held ∧ a = .pending := by
  constructor
  · intro hs
    have hl := h.live (by rwa [watching_eq (by rw [ha]; rfl)])
    simp only [isLive, Bool.and_eq_true] at hl
    exact ⟨hl.1, (h.answer a ha).1 hs⟩
  · rintro ⟨-, hp⟩
    exact (h.answer a ha).2 hp

theorem Commit.Transition.not_idle {id : CommitId} {c c' : Commit β Ω} {s s' : Store β} {ω : Ω}
    {call : Call} {p : Point β Ω} {woken : List CommitId}
    (h : c.Transition id s ω call p c' s' woken) (hp : c.phase = .busy call p) :
    c'.phase ≠ .idle := by
  intro hi
  cases h with
  | stall => cases hp.symm.trans hi
  | leave | finish =>
    rw [finish_fst] at hi
    cases hi
  | refuse =>
    rw [drop_fst] at hi
    cases hi
  | stop | resume | sleep | begin | giveUp | attempt | launch | step | park | rerun | discard | lose
  | conclude | publish | skip | tell | wake | rest | stir => cases hi

theorem Commit.Transition.watching {id : CommitId} {c c' : Commit β Ω} {s s' : Store β} {ω : Ω}
    {call : Call} {p : Point β Ω} {woken : List CommitId} {j : Journal β}
    (h : c.Transition id s ω call p c' s' woken) (hp : c.phase = .busy call p)
    (hr : c'.phase.isAtRest) (hj : c'.watching = some j) :
    c.phase.retried? = some j ∨
      c.phase.retried? = none ∧ c.phase.isAtRest ∧ c.watching = some j := by
  cases h with
  | stop | sleep =>
    rw [hp]
    refine .inr ⟨rfl, rfl, ?_⟩
    rw [watching_eq (by rw [hp]; rfl)]
    exact hj
  | stall =>
    rw [hp]
    exact .inr ⟨rfl, rfl, hj⟩
  | leave | finish =>
    rw [finish_fst] at hj
    cases hj
  | refuse =>
    rw [drop_fst] at hj
    cases hj
  | park ho hv =>
    refine .inl ?_
    simp only [hp, Phase.retried?, ho]
    exact hj
  | rest hv | stir hv =>
    simp only [Commit.watching, hp]
    exact .inr ⟨rfl, rfl, hj⟩
  | resume | begin | giveUp | attempt | launch | step | rerun | discard | lose | conclude
  | publish | skip | tell | wake => cases hr

section

variable {h : History β Ω} {e : Engine β Ω} {id : CommitId} {c : Commit β Ω}

theorem Run.idle_of_not_called (r : Run h e) (hc : e.commits[id]? = some c) (hn : ¬ h.Called id) :
    c.phase = .idle ∧ c.suspended = none := by
  refine r.each (P := fun h _ i c => ¬ h.Called i → c.phase = .idle ∧ c.suspended = none)
    ?_ ?_ ?_ hc hn
  · intro _ _ _ _ _ _ _ _ _
    exact ⟨rfl, rfl⟩
  · intro h e m i c c' _ _ _ ih hm hn
    have ih := ih fun ⟨x, hx, hc⟩ => hn ⟨x, List.mem_cons_of_mem _ hx, hc⟩
    cases hm with
    | keep | setFiber | setScheduler | setWatched | interrupt => exact ih
    | poll | refuse | runSync =>
      exact absurd ⟨_, List.mem_cons_self, decide_eq_true rfl⟩ hn
    | settle => exact ⟨rfl, ih.2⟩
    | drop =>
      rw [Commit.drop_fst]
      exact ⟨ih.1, rfl⟩
    | turn hp =>
      rw [ih.1] at hp
      cases hp
  · intro _ _ _ _ _ _ ih
    exact ih

theorem Run.answered_of_none (r : Run h e) (hc : e.commits[id]? = none) :
    h.answered id = none := by
  induction r with
  | start ω => rfl
  | @next h e m r hm ih =>
    cases hd : e.commits[id]? with
    | none =>
      have ha : e.answer? id = none := by simp only [Engine.answer?, hd]
      rw [History.answered, ha, ih hd]
      rfl
    | some c =>
      obtain ⟨_, _, -, -, h⟩ := Engine.moved hm hd (r.tracked.ne_nextCommit hd)
      rw [hc] at h
      cases h

theorem Run.suspended_iff_of_idle (r : Run h e) (hc : e.commits[id]? = some c)
    (hi : c.phase = .idle) : c.suspended.isSome ↔ c.held ∧ h.answered id = some .pending := by
  refine r.each (P := fun h _ i c => c.phase = .idle →
    (c.suspended.isSome ↔ c.held ∧ h.answered i = some .pending)) ?_ ?_ ?_ hc hi
  · intro h e t E A f s r _
    have hn := r.tracked.nextCommit_eq_none
    have ha : e.answer? e.nextCommit = none := by simp only [Engine.answer?, hn]
    simp [History.answered, ha, r.answered_of_none hn]
  · intro h e m i c c' r hm hc ih hmv hi
    have ha : History.answered i ((e, m) :: h) = c.phase.answer?.or (h.answered i) := by
      rw [History.answered, Engine.answer?_eq hc]
    have same (hi : c.phase = .idle) : History.answered i ((e, m) :: h) = h.answered i := by
      rw [ha, hi]
      rfl
    cases hmv with
    | keep | setFiber | setScheduler | setWatched | interrupt =>
      rw [same hi]
      exact ih hi
    | poll | refuse | runSync => cases hi
    | @settle _ a hq =>
      rw [ha, hq]
      simpa [Phase.answer?] using (r.tidy hc).suspended_iff hq
    | drop =>
      rw [Commit.drop_fst]
      simp
    | turn hp ht => exact absurd hi (ht.not_idle hp)
  · intro _ _ _ _ _ _ ih
    exact ih

theorem Run.suspended_iff (r : Run h e) (hc : e.commits[id]? = some c)
    (hp : c.phase.isBusy = false) :
    c.suspended.isSome ↔ c.held ∧ h.lastAnswer e id = some .pending := by
  unfold History.lastAnswer
  rw [Engine.answer?_eq hc]
  cases hq : c.phase with
  | idle => exact r.suspended_iff_of_idle hc hq
  | busy call p => simp [hq, Phase.isBusy] at hp
  | answered a => simpa [Phase.answer?] using (r.tidy hc).suspended_iff hq

theorem Run.lastRetry_of_watching (r : Run h e) (hc : e.commits[id]? = some c)
    (hp : c.phase.isAtRest) {j : Journal β} (hj : c.watching = some j) :
    h.lastRetry id = some j := by
  refine r.each (P := fun h _ i c => c.phase.isAtRest → ∀ j, c.watching = some j →
    h.lastRetry i = some j) ?_ ?_ ?_ hc hp j hj
  · intro _ _ _ _ _ _ _ _ _ _ hw
    cases hw
  · intro h e m i c c' r hm hc ih hmv hr j hj
    have same (hn : Engine.retried? i (e, m) = none) :
        History.lastRetry i ((e, m) :: h) = h.lastRetry i := by
      rw [History.lastRetry, hn]
      rfl
    cases hmv with
    | keep hn =>
      rw [same (Engine.retried?_of_ne hn)]
      exact ih hr j hj
    | setFiber | setScheduler | setWatched | interrupt =>
      rw [same (Engine.retried?_of_ne nofun)]
      exact ih hr j hj
    | poll _ hi | refuse _ hi =>
      rw [same (Engine.retried?_of_ne nofun)]
      exact ih (by rw [hi]; rfl) j (by rw [Commit.watching_of_idle hi]; exact hj)
    | runSync => cases hr
    | settle ha =>
      rw [same (Engine.retried?_of_ne nofun)]
      refine ih (by rw [ha]; rfl) j ?_
      rw [Commit.watching_eq (by rw [ha]; rfl)]
      exact hj
    | drop _ hi =>
      rw [Commit.drop_fst, Commit.watching_of_idle (by exact hi)] at hj
      cases hj
    | turn hp ht =>
      rw [History.lastRetry, Engine.retried?_advance hc]
      rcases ht.watching hp hr hj with h | ⟨hn, hr, hj⟩
      · rw [h]
        rfl
      · rw [hn]
        exact ih hr j hj
  · intro _ _ _ _ _ _ ih
    exact ih

end

end TransactionalMemory
