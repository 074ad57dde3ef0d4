import TransactionalMemory.Proofs.Delivery

namespace TransactionalMemory

variable {β : Type} [Universe β] {Ω : Type}

namespace Commit

variable {id i : CommitId} {c c' : Commit β Ω} {s s' : Store β} {ω : Ω} {call : Call} {p : Point β Ω}
  {woken : List CommitId}

theorem Transition.notified (h : c.Transition id s ω call p c' s' woken)
    (hn : c'.signals.notified) : c.signals.notified := by
  cases h with
  | stop | stall | sleep | begin | giveUp | attempt | launch | step | rerun | discard | lose
  | conclude | publish | skip | tell | wake | rest | stir => exact hn
  | resume | park => cases hn
  | leave | finish =>
    rw [finish_fst] at hn
    exact hn
  | refuse =>
    rw [drop_fst] at hn
    exact hn

theorem Transition.signals_of_woken (h : c.Transition id s ω call p c' s' woken) (hw : woken ≠ []) :
    c'.signals = c.signals := by
  cases h with
  | wake => rfl
  | _ => exact absurd rfl hw

theorem Transition.woken_of (h : c.Transition id s ω call p c' s' woken)
    (hp : c.phase = .busy call p) (hs : s.Sound) (hk : c.Known s) (hi : i ∈ c'.phase.woken) :
    i ∈ c.phase.woken ∨ ∃ d ∈ s.cells, s'.version d ≠ s.version d ∧
      ∃ f : FiberId, (s.waiting d)[f]? = some i := by
  cases h with
  | @publish _ m o r called t j ho hr hw hst hpub =>
    refine .inr ?_
    obtain ⟨⟨f, k⟩, hmem, rfl⟩ := List.mem_map.1 hi
    obtain ⟨-, hcalled, -⟩ := Journal.publish_eq_ok hpub
    have hget := Std.ExtTreeMap.mem_toList_iff_getElem?_eq_some.1 hmem
    obtain ⟨d, hd, hlist⟩ := Journal.getElem?_waitingFor (hcalled ▸ hget)
    have hj : m.journal.Known s := hk.2 _ (by rw [hp]; rfl)
    have hcell : d ∈ s.cells := hj.mem (Std.ExtTreeMap.mem_of_mem_filterMap hd)
    refine ⟨d, hcell, fun hv => ?_, f, hlist⟩
    rw [Std.ExtTreeMap.mem_iff_isSome_getElem?, Journal.getElem?_written] at hd
    rcases Journal.cell_publish hpub d with ⟨x, v, -, -, hnew⟩ | ⟨hnone, -⟩
    · have hpast := hs.past d
      rw [← hv, Store.version, hnew] at hpast
      exact absurd hpast (Nat.lt_irrefl _)
    · cases hx : m.journal.entries[d]? with
      | none => simp [hx] at hd
      | some x => simp [hx, hnone x hx] at hd
  | tell =>
    rw [hp]
    exact .inl hi
  | stall => exact .inl hi
  | conclude => cases hi
  | leave | finish =>
    rw [finish_fst] at hi
    cases hi
  | refuse =>
    rw [drop_fst] at hi
    cases hi
  | stop | resume | sleep | begin | giveUp | attempt | launch | step | park | rerun | discard | lose
  | skip | wake | rest | stir => cases hi

end Commit

namespace Engine

variable {e e' : Engine β Ω} {m : Move β Ω} {id i : CommitId} {c d : Commit β Ω} {s : SchedulerId}
  {w : Waker} {task : List CommitId}

theorem owes_iff : e.Owes id ↔ (∃ p ∈ e.commits.toList, id ∈ p.2.phase.woken) ∨
    ∃ p ∈ e.schedulers.toList, id ∈ p.2.tasks.flatten := by
  simp only [Owes, Prod.exists, Std.ExtTreeMap.mem_toList_iff_getElem?_eq_some]

instance : Decidable (e.Owes id) := decidable_of_iff _ owes_iff.symm

theorem owes_of_woken {call : Call} {p : Point β Ω} {t : Turn β Ω} (hc : e.commits[i]? = some c)
    (hp : c.phase = .busy call p)
    (ht : c.Transition i e.store e.world call p t.commit t.store t.woken) (hi : id ∈ t.woken) :
    e.Owes id := by
  obtain ⟨r, rfl⟩ := ht.eq_waking (List.ne_nil_of_mem hi)
  exact .inl ⟨i, c, hc, by rw [hp]; exact hi⟩

def Tell (q : Std.ExtTreeMap SchedulerId Scheduler) (P : CommitId → Prop) : Prop :=
  ∀ (s : SchedulerId) (d : Scheduler), q[s]? = some d → ∀ i ∈ d.tasks.flatten, P i

section Tell

variable {P : CommitId → Prop} {q : Std.ExtTreeMap SchedulerId Scheduler}

theorem Tell.insert (h : Tell q P) {b : Scheduler} (hb : ∀ i ∈ b.tasks.flatten, P i) :
    Tell (q.insert s b) P := by
  intro k d hd
  rw [Std.ExtTreeMap.getElem?_insert] at hd
  split at hd
  · cases hd
    exact hb
  · exact h k d hd

theorem tell_owes : Tell e.schedulers e.Owes := fun s d hd _ hi => .inr ⟨s, d, hd, hi⟩

theorem schedulers_runTask (task : List CommitId) : (e.runTask task).schedulers = e.schedulers := by
  obtain ⟨_, _, _, h⟩ := e.runTask_frame task
  rw [h]

theorem Scheduled.tell (h : Scheduled e task e') (hq : Tell e.schedulers P) (ht : ∀ i ∈ task, P i) :
    Tell e'.schedulers P := by
  cases h with
  | atOnce =>
    rw [schedulers_runTask]
    exact hq
  | @counted k d hd =>
    rw [schedulers_runTask]
    exact hq.insert (hq k d hd)
  | @queued k d hd =>
    refine hq.insert fun i hi => ?_
    rw [List.flatten_append, List.mem_append] at hi
    rcases hi with hi | hi
    · exact hq k d hd i hi
    · exact ht i (by simpa using hi)
  | @lost k d hd => exact hq.insert (hq k d hd)

def Runs (e e' : Engine β Ω) : Prop :=
  e' = e ∨ ∃ q l, e' = ({ e with schedulers := q } : Engine β Ω).runTask l ∧ (∀ i ∈ l, e.Owes i) ∧
    Tell q e.Owes

theorem runs_runTasks (s : SchedulerId) : Runs e (e.act (.runTasks s)) := by
  simp only [act, Engine.runTasks]
  cases hs : e.schedulers[s]? with
  | none => exact .inl rfl
  | some d =>
    refine .inr ⟨e.schedulers.insert s { d with tasks := [] }, d.tasks.flatten, ?_, ?_, ?_⟩
    · simp only [foldl_runTask]
    · exact tell_owes s d hs
    · exact tell_owes.insert (by rintro _ ⟨⟩)

theorem runs_runTask (s : SchedulerId) (n : Nat) : Runs e (e.act (.runTask s n)) := by
  simp only [act, runNth]
  cases hs : e.schedulers[s]? with
  | none => exact .inl rfl
  | some d =>
    refine .inr ⟨e.schedulers.insert s { d with tasks := d.tasks.eraseIdx n }, (d.tasks[n]?).getD [],
      rfl, fun i hi => ?_, ?_⟩
    · cases hn : d.tasks[n]? with
      | none =>
        rw [hn] at hi
        cases hi
      | some task =>
        rw [hn] at hi
        exact tell_owes s d hs i (List.mem_flatten.2 ⟨task, List.mem_of_getElem? hn, hi⟩)
    · refine tell_owes.insert fun i hi => ?_
      obtain ⟨task, ht, hi⟩ := List.mem_flatten.1 hi
      exact tell_owes s d hs i (List.mem_flatten.2 ⟨task, List.mem_of_mem_eraseIdx ht, hi⟩)

end Tell

theorem owes_of_told {k : CommitId} (hm : e.admits (.advance k)) (hc : e.commits[id]? = some c)
    (hd : (e.act (.advance k)).commits[id]? = some d) (hn : c.signals.notified = false)
    (hn' : d.signals.notified) : e.Owes id := by
  obtain ⟨b, hb⟩ := exists_of_advance hm
  obtain ⟨call, p, hp⟩ := busy_of_admits hm hb
  obtain ⟨t, ht, -, h⟩ := advance_cases hb hp
  have untold : (e.turned k t).commits[id]? ≠ some d := by
    rw [turned, getElem?_put]
    intro hget
    split at hget
    · rename_i hk
      subst hk
      cases hc.symm.trans hb
      cases hget
      have := ht.notified hn'
      rw [hn] at this
      cases this
    · cases hc.symm.trans hget
      rw [hn] at hn'
      cases hn'
  rcases h with ⟨-, h⟩ | h
  · exact absurd (by rw [← h, hd]) untold
  · rcases h.getElem? (i := id) with h | ⟨hi, -⟩
    · exact absurd (by rw [← h, hd]) untold
    · exact owes_of_woken hb hp ht hi

theorem owes_of_notified (hm : e.admits m) (hc : e.commits[id]? = some c) (hi : id ≠ e.nextCommit)
    (hd : (e.act m).commits[id]? = some d) (hn : c.signals.notified = false)
    (hn' : d.signals.notified) : e.Owes id := by
  have kept {b : Commit β Ω} (hb : (e.act m).commits[id]? = some b)
      (hs : b.signals.notified = c.signals.notified) : e.Owes id := by
    obtain rfl : d = b := Option.some.inj (hd.symm.trans hb)
    rw [hs, hn] at hn'
    cases hn'
  have modified {k : CommitId} {f : Commit β Ω → Commit β Ω} (ha : e.act m = e.modify k f)
      (hf : (f c).signals.notified = c.signals.notified) : e.Owes id := by
    have hget := getElem?_modify (e := e) (i := id) (f := f) k
    rw [← ha, hc] at hget
    by_cases hk : k = id
    · rw [if_pos hk] at hget
      exact kept hget hf
    · rw [if_neg hk] at hget
      exact kept hget rfl
  have ran (h : Runs e (e.act m)) : e.Owes id := by
    rcases h with h | ⟨q, l, h, ho, -⟩
    · exact kept (b := c) (by rw [h, hc]) rfl
    · by_cases hl : id ∈ l
      · exact ho id hl
      · refine kept (b := c) ?_ rfl
        rw [h, getElem?_runTask, if_neg hl]
        exact hc
  cases m with
  | alloc | change | takeFiber | addScheduler | park => exact kept hc rfl
  | wake w =>
    obtain ⟨_, _, h⟩ := e.wake_frame w
    exact kept (b := c) (by simp only [act, h, hc]) rfl
  | commit t E A s =>
    refine kept (b := c) ?_ rfl
    simp only [act, commit, freshFiber, getElem?_put]
    rw [if_neg (Ne.symm hi), hc]
  | setFiber | setScheduler | setWatched | runSync | settle => exact modified rfl rfl
  | poll k w => exact modified rfl (by split <;> rfl)
  | interrupt k f =>
    by_cases hk : k = id
    · subst hk
      have h := getElem?_interrupt f hc
      split at h <;> exact kept h rfl
    · refine kept (b := c) ?_ rfl
      rw [getElem?_interrupt_of_ne f hk, hc]
  | drop k =>
    by_cases hk : k = id
    · subst hk
      obtain ⟨hh, hp⟩ := held_of_isFree hm hc
      refine kept (b := (c.drop e.store).1) ?_ (by rw [Commit.drop_fst])
      simp only [act, Engine.drop, hc, getElem?_put, if_true]
    · exact kept (b := c) (by rw [getElem?_drop_of_ne hk, hc]) rfl
  | runTasks s => exact ran (runs_runTasks s)
  | runTask s n => exact ran (runs_runTask s n)
  | advance k => exact owes_of_told hm hc hd hn hn'

theorem tell_act (hm : e.admits m) : Tell (e.act m).schedulers e.Owes := by
  have same (h : (e.act m).schedulers = e.schedulers) : Tell (e.act m).schedulers e.Owes := by
    rw [h]
    exact tell_owes
  have ran (h : Runs e (e.act m)) : Tell (e.act m).schedulers e.Owes := by
    rcases h with h | ⟨q, l, h, -, hq⟩
    · exact same (by rw [h])
    · rw [h, schedulers_runTask]
      exact hq
  cases m with
  | alloc | change | takeFiber | park | setFiber | setScheduler | setWatched | poll | runSync | settle
  | commit => exact same rfl
  | wake w =>
    obtain ⟨_, _, h⟩ := e.wake_frame w
    exact same (by simp only [act, h])
  | interrupt k f =>
    obtain ⟨_, _, _, h⟩ := e.interrupt_frame k f
    exact same (by simp only [act, h])
  | drop k =>
    refine same ?_
    simp only [act, Engine.drop]
    cases e.commits[k]? <;> rfl
  | addScheduler k mode => exact tell_owes.insert (by rintro _ ⟨⟩)
  | runTasks k => exact ran (runs_runTasks k)
  | runTask k n => exact ran (runs_runTask k n)
  | advance k =>
    obtain ⟨c, hc⟩ := exists_of_advance hm
    obtain ⟨call, p, hp⟩ := busy_of_admits hm hc
    obtain ⟨t, ht, -, ⟨-, h⟩ | h⟩ := advance_cases hc hp
    · exact same (by rw [h]; rfl)
    · exact h.tell (tell_owes (e := e)) fun i => owes_of_woken hc hp ht

theorem Owes.of_act (he : e.Tracked) (hm : e.admits m) (ho : (e.act m).Owes id) : e.Owes id ∨
    ∃ d ∈ e.store.cells, (e.act m).store.version d ≠ e.store.version d ∧
      ∃ f : FiberId, (e.store.waiting d)[f]? = some id := by
  rcases ho with ⟨k, b, hb, hi⟩ | ⟨s, d, hs, hi⟩
  · cases hc : e.commits[k]? with
    | none =>
      obtain ⟨_, _, _, _, -, -, rfl⟩ := fresh_of_act hm hc hb
      cases hi
    | some c =>
      have old (h : id ∈ c.phase.woken) : e.Owes id := .inl ⟨k, c, hc, h⟩
      obtain ⟨c', b', hmv, hears, hb'⟩ := moved hm hc (he.ne_nextCommit hc)
      obtain rfl : b = b' := Option.some.inj (hb.symm.trans hb')
      obtain ⟨g, rfl, -⟩ := hears.frame
      cases hmv with
      | keep | setFiber | setScheduler | setWatched | interrupt => exact .inl (old hi)
      | poll | refuse | runSync | settle => cases hi
      | drop =>
        rw [Commit.drop_fst] at hi
        exact .inl (old hi)
      | turn hp ht =>
        exact (ht.woken_of hp he.sound (he.known k c hc) hi).imp_left old
  · exact .inl (tell_act hm s d hs id hi)

def Asleep (w : Waker) (e : Engine β Ω) : Prop := w = .thread → e.unparked = false

section Asleep

variable {e₁ e₂ : Engine β Ω}

theorem woke_congr (h₁ : e₁.wakes = e.wakes) (h₂ : e₂.wakes = e'.wakes)
    (hu : e₂.unparked = e'.unparked) : Woke w e₁ e₂ ↔ Woke w e e' := by
  cases w with
  | task t => simp only [Woke, h₁, h₂]
  | thread => simp only [Woke, hu]

theorem Asleep.not_woke_of (hs : Asleep w e) (h₁ : e'.wakes = e.wakes)
    (h₂ : e'.unparked = e.unparked) : ¬ Woke w e e' := by
  intro h
  rw [woke_congr rfl h₁ h₂] at h
  cases w with
  | task t => exact Nat.lt_irrefl _ h
  | thread => exact absurd h (by simp [Woke, hs rfl])

theorem Asleep.not_woke (hs : Asleep w e) : ¬ Woke w e e := hs.not_woke_of rfl rfl

theorem Asleep.split (hs : Asleep w e) (h : Woke w e e₂) (e₁ : Engine β Ω) :
    Woke w e e₁ ∨ Asleep w e₁ ∧ Woke w e₁ e₂ := by
  cases w with
  | task t =>
    by_cases ht : Woke (.task t) e e₁
    · exact .inl ht
    · exact .inr ⟨nofun, Nat.lt_of_le_of_lt (Nat.not_lt.1 ht) h⟩
  | thread =>
    cases hu : e₁.unparked with
    | true => exact .inl hu
    | false => exact .inr ⟨fun _ => hu, h⟩

theorem Asleep.of_wake (hs : Asleep w e) {v : Waker} (h : Woke w e (e.wake v)) : v = w := by
  cases v with
  | task t =>
    cases w with
    | task t' =>
      simp only [Woke, wakes_wake] at h
      split at h
      · rename_i ht
        rw [ht]
      · exact absurd h (Nat.lt_irrefl _)
    | thread => exact absurd (show Woke .thread e e from h) hs.not_woke
  | thread =>
    cases w with
    | task t => exact absurd h (Nat.lt_irrefl _)
    | thread => rfl

theorem Asleep.of_wake? (hs : Asleep w e) {v : Option Waker} (h : Woke w e (e.wake? v)) :
    v = some w := by
  cases v with
  | none => exact absurd h hs.not_woke
  | some v => rw [hs.of_wake h]

theorem Asleep.of_notify (hs : Asleep w e) {k : CommitId} (h : Woke w e (e.notify k)) :
    ∃ c, e.commits[k]? = some c ∧ c.signals.waker = some w := by
  unfold notify at h
  cases hc : e.commits[k]? with
  | none =>
    simp only [hc] at h
    exact absurd h hs.not_woke
  | some c =>
    refine ⟨c, rfl, ?_⟩
    simp only [hc] at h
    split at h
    · have hput : Asleep w (e.put k { c with signals := c.signals.notify.2 }) := hs
      have hv := hput.of_wake? ((woke_congr (by rfl) (by rfl) (by rfl)).1 h)
      unfold Signals.notify at hv
      split at hv
      · exact hv
      · cases hv
    · exact absurd h hs.not_woke

theorem Asleep.of_runTask (hs : Asleep w e) (h : Woke w e (e.runTask task)) :
    ∃ k ∈ task, ∃ c, e.commits[k]? = some c ∧ c.signals.waker = some w := by
  induction task generalizing e with
  | nil => exact absurd h hs.not_woke
  | cons k task ih =>
    rcases hs.split h (e.notify k) with h | ⟨hs', h⟩
    · exact ⟨k, List.mem_cons_self, hs.of_notify h⟩
    · obtain ⟨i, hi, c, hc, hw⟩ := ih hs' h
      refine ⟨i, List.mem_cons_of_mem _ hi, ?_⟩
      rw [getElem?_notify] at hc
      split at hc
      · obtain ⟨b, hb, rfl⟩ := Option.map_eq_some_iff.1 hc
        refine ⟨b, hb, ?_⟩
        -- A callback empties the slot or leaves it as it is.
        unfold Commit.heard at hw
        split at hw
        · unfold Signals.notify at hw
          split at hw
          · cases hw
          · exact hw
        · exact hw
      · exact ⟨c, hc, hw⟩

theorem Scheduled.waker (h : Scheduled e task e') (hs : Asleep w e) (hw : Woke w e e') :
    ∃ k ∈ task, ∃ c, e.commits[k]? = some c ∧ c.signals.waker = some w := by
  cases h with
  | atOnce => exact hs.of_runTask hw
  | @counted s d =>
    have hs' : Asleep w ({ e with
      schedulers := e.schedulers.insert s { d with calls := d.calls + 1 } } : Engine β Ω) := hs
    exact hs'.of_runTask ((woke_congr (by rfl) (by rfl) (by rfl)).1 hw)
  | queued | lost => exact absurd hw (hs.not_woke_of rfl rfl)

/-- A waker is woken from outside, or from the slot of a commit that is interrupted or hears what it is
owed. -/
theorem Asleep.woke_cases (hs : Asleep w e) (hm : e.admits m) (h : Woke w e (e.act m)) :
    m = .wake w ∨ ∃ k c, e.commits[k]? = some c ∧ c.signals.waker = some w ∧
      ((∃ f, m = .interrupt k f) ∨ e.Owes k) := by
  have silent (h₁ : (e.act m).wakes = e.wakes) (h₂ : (e.act m).unparked = e.unparked) {P : Prop} : P :=
    absurd h (hs.not_woke_of h₁ h₂)
  have ran (hr : Runs e (e.act m)) : ∃ k c, e.commits[k]? = some c ∧ c.signals.waker = some w ∧
      ((∃ f, m = .interrupt k f) ∨ e.Owes k) := by
    rcases hr with hr | ⟨q, l, hr, ho, -⟩
    · exact silent (by rw [hr]) (by rw [hr])
    · rw [hr] at h
      have hs' : Asleep w ({ e with schedulers := q } : Engine β Ω) := hs
      obtain ⟨k, hk, c, hc, hw⟩ := hs'.of_runTask ((woke_congr (by rfl) (by rfl) (by rfl)).1 h)
      exact ⟨k, c, hc, hw, .inr (ho k hk)⟩
  cases m with
  | alloc | change | takeFiber | addScheduler | setFiber | setScheduler | setWatched | poll | runSync
  | settle | commit => exact silent rfl rfl
  | park =>
    cases w with
    | task t => exact absurd h (Nat.lt_irrefl _)
    | thread => cases h
  | wake v => exact .inl (by rw [hs.of_wake h])
  | drop k =>
    apply silent <;>
    · simp only [act, Engine.drop]
      cases e.commits[k]? <;> rfl
  | interrupt k f =>
    simp only [act, Engine.interrupt] at h silent
    cases hc : e.commits[k]? with
    | none => exact silent (by simp only [hc]) (by simp only [hc])
    | some c =>
      refine .inr ⟨k, c, hc, ?_, .inl ⟨f, rfl⟩⟩
      cases hr : c.signals.interrupt with
      | none => exact silent (by simp only [hc, hr]) (by simp only [hc, hr])
      | some v =>
        simp only [hc, hr] at h
        have hs' : Asleep w (e.put k { c with signals := v.2 }) := hs
        have hv := hs'.of_wake? ((woke_congr (by rfl) (by rfl) (by rfl)).1 h)
        rw [← hv, (Signals.interrupt_eq_some_iff.1 hr).2.1]
  | runTasks s => exact .inr (ran (runs_runTasks s))
  | runTask s n => exact .inr (ran (runs_runTask s n))
  | advance k =>
    obtain ⟨b, hb⟩ := exists_of_advance hm
    obtain ⟨call, p, hp⟩ := busy_of_admits hm hb
    obtain ⟨t, ht, -, ⟨-, ha⟩ | ha⟩ := advance_cases hb hp
    · exact silent (by rw [ha]; rfl) (by rw [ha]; rfl)
    · have hs' : Asleep w (e.turned k t) := hs
      obtain ⟨i, hi, c, hc, hw⟩ := ha.waker hs' ((woke_congr (by rfl) (by rfl) (by rfl)).1 h)
      have ho := owes_of_woken hb hp ht hi
      rw [turned, getElem?_put] at hc
      split at hc
      · -- The commit that has had to call others has left its own slot alone.
        rename_i hk
        subst hk
        cases hc
        rw [ht.signals_of_woken (List.ne_nil_of_mem hi)] at hw
        exact .inr ⟨k, b, hb, hw, .inr ho⟩
      · exact .inr ⟨i, c, hc, hw, .inr ho⟩

theorem rings_cases (hm : e.admits m) (h : Rings w (e, m)) :
    m = .wake w ∨ ∃ k c, e.commits[k]? = some c ∧ c.signals.waker = some w ∧
      ((∃ f, m = .interrupt k f) ∨ e.Owes k) := by
  cases w with
  | task t =>
    have hs : Asleep (.task t) e := nofun
    exact hs.woke_cases hm h
  | thread =>
    have hs : Asleep .thread e.parked := fun _ => rfl
    exact hs.woke_cases (by rwa [admits_parked]) h

end Asleep

end Engine

end TransactionalMemory
