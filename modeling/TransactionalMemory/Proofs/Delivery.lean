import TransactionalMemory.Proofs.Journals

namespace TransactionalMemory

variable {β : Type} [Universe β] {Ω : Type}

def Phase.woken : Phase β Ω → List CommitId
  | .busy _ (.published _ woken) | .busy _ (.waking _ woken) => woken
  | _ => []

theorem Journal.getElem?_foldl_union {s : Store β} {f : FiberId} {id : CommitId}
    {l : List (CellId × Cell β)} {w : Waiting}
    (h : (l.foldl (fun w p => w ∪ s.waiting p.1) w)[f]? = some id) :
    w[f]? = some id ∨ ∃ p ∈ l, (s.waiting p.1)[f]? = some id := by
  induction l generalizing w with
  | nil => exact .inl h
  | cons p l ih =>
    rcases ih h with h | ⟨q, hq, h⟩
    · rw [Std.ExtTreeMap.getElem?_union] at h
      cases hd : (s.waiting p.1)[f]? with
      | none => exact .inl (by simpa [hd] using h)
      | some i =>
        refine .inr ⟨p, List.mem_cons_self, ?_⟩
        rw [hd] at h ⊢
        simpa using h
    · exact .inr ⟨q, List.mem_cons_of_mem _ hq, h⟩

theorem Journal.getElem?_waitingFor {s : Store β} {cells : Std.ExtTreeMap CellId (Cell β)}
    {f : FiberId} {id : CommitId} (h : (waitingFor s cells)[f]? = some id) :
    ∃ d ∈ cells, (s.waiting d)[f]? = some id := by
  rw [waitingFor, Std.ExtTreeMap.foldl_eq_foldl_toList] at h
  rcases getElem?_foldl_union h with h | ⟨p, hp, h⟩
  · simp at h
  · rw [Std.ExtTreeMap.mem_toList_iff_getElem?_eq_some] at hp
    exact ⟨p.1, Std.ExtTreeMap.mem_iff_isSome_getElem?.2 (by rw [hp]; rfl), h⟩

theorem Commit.Transition.mem_woken {id i : CommitId} {c c' : Commit β Ω} {s s' : Store β} {ω : Ω}
    {call : Call} {p : Point β Ω} {woken : List CommitId} {d : CellId} {f : FiberId}
    (h : c.Transition id s ω call p c' s' woken) (hk : c.Known s) (hp : c.phase = .busy call p)
    (hs : s.Sound) (hd : d ∈ s.cells) (hv : s'.version d ≠ s.version d)
    (hi : (s.waiting d)[f]? = some i) (alone : ∀ d' k, (s.waiting d')[f]? = some k → k = i) :
    i ∈ c'.phase.woken := by
  rcases h.version_eq hk hp hs with hv' | ⟨-, -, r, w, hq⟩
  · exact absurd (hv' d hd) hv
  · cases h with
    | @publish _ m o r' called t j ho hr hw hst hpub =>
      obtain ⟨-, hcalled, -⟩ := Journal.publish_eq_ok hpub
      have hmem : f ∈ called := by
        rw [hcalled, Journal.mem_waitingFor]
        refine ⟨d, ?_, Std.ExtTreeMap.mem_iff_isSome_getElem?.2 (by rw [hi]; rfl)⟩
        rcases Journal.cell_publish hpub d with ⟨x, v, hx, hv', -⟩ | ⟨-, hcell⟩
        · rw [Std.ExtTreeMap.mem_iff_isSome_getElem?, Journal.getElem?_written, hx]
          simp [hv']
        · exact absurd (by rw [Store.version, hcell]; rfl) hv
      obtain ⟨k, hget⟩ := Option.isSome_iff_exists.1 (Std.ExtTreeMap.mem_iff_isSome_getElem?.1 hmem)
      obtain ⟨d', -, hd'⟩ := Journal.getElem?_waitingFor (hcalled ▸ hget)
      obtain rfl := alone d' k hd'
      exact List.mem_map.2 ⟨(f, k), Std.ExtTreeMap.mem_toList_iff_getElem?_eq_some.2 hget, rfl⟩
    | conclude => exact absurd rfl hv
    | leave | finish =>
      rw [finish_fst] at hq
      cases hq
    | refuse =>
      rw [drop_fst] at hq
      cases hq
    | stall => cases hp.symm.trans hq
    | stop | resume | sleep | begin | giveUp | attempt | launch | step | park | rerun | discard
    | lose | skip | tell | wake | rest | stir => cases hq

theorem Commit.Transition.woken {id : CommitId} {c c' : Commit β Ω} {s s' : Store β} {ω : Ω}
    {call : Call} {p : Point β Ω} {woken : List CommitId}
    (h : c.Transition id s ω call p c' s' woken) (hp : c.phase = .busy call p) {i : CommitId}
    (hi : i ∈ c.phase.woken) : i ∈ c'.phase.woken ∨ i ∈ woken := by
  rw [hp] at hi
  cases h with
  | tell => exact .inl hi
  | wake => exact .inr hi
  | stop | stall | resume | sleep | begin | leave | giveUp | attempt | launch | step | refuse | park
  | rerun | discard | lose | conclude | publish | skip | finish | rest | stir => cases hi

namespace Engine

variable {e : Engine β Ω} {m : Move β Ω} {id : CommitId} {c : Commit β Ω} {s : SchedulerId}

/-- A callback of the commit is held by a commit that has published, or by a task of a scheduler. -/
def Owes (e : Engine β Ω) (id : CommitId) : Prop :=
  (∃ (k : CommitId) (c : Commit β Ω), e.commits[k]? = some c ∧ id ∈ c.phase.woken) ∨
    ∃ (s : SchedulerId) (d : Scheduler), e.schedulers[s]? = some d ∧ id ∈ d.tasks.flatten

inductive Rescheduled (ds : Std.ExtTreeMap SchedulerId Scheduler) (e' : Engine β Ω)
    (s : SchedulerId) : Move β Ω → Option Scheduler → Prop
  | keep {m : Move β Ω} : Rescheduled ds e' s m ds[s]?
  | new {mode : Mode} : ds[s]? = none → Rescheduled ds e' s (.addScheduler s mode) (some { mode })
  | run {m : Move β Ω} {d : Scheduler} (rest : List (List CommitId)) : ds[s]? = some d →
    (∀ i ∈ d.tasks.flatten, i ∈ rest.flatten ∨ ∀ c, e'.commits[i]? = some c → c.heard = c) →
    Rescheduled ds e' s m (some { d with tasks := rest })
  | more {m : Move β Ω} {d : Scheduler} (n : Nat) (tasks : List (List CommitId)) :
    ds[s]? = some d → Rescheduled ds e' s m (some { d with calls := n, tasks := d.tasks ++ tasks })

theorem heard_of_runTask {task : List CommitId} (hi : id ∈ task)
    (hc : (e.runTask task).commits[id]? = some c) : c.heard = c := by
  rw [getElem?_runTask, if_pos hi] at hc
  obtain ⟨b, -, rfl⟩ := Option.map_eq_some_iff.1 hc
  exact b.heard_heard

theorem Drained.rescheduled {e' : Engine β Ω} (h : Drained e e') :
    Rescheduled e.schedulers e' s m e'.schedulers[s]? := by
  cases h with
  | idle => exact .keep
  | @ran k d task rest hd hrest =>
    have hs : (({ e with
        schedulers := e.schedulers.insert k { d with tasks := rest } }).runTask task).schedulers =
        e.schedulers.insert k { d with tasks := rest } := by
      obtain ⟨_, _, _, h⟩ := ({ e with
        schedulers := e.schedulers.insert k { d with tasks := rest } }).runTask_frame task
      rw [h]
    simp only [hs, Std.ExtTreeMap.getElem?_insert, Std.LawfulEqOrd.compare_eq_iff_eq]
    split
    · rename_i hk
      subst hk
      refine .run rest hd fun i hi => ?_
      rcases hrest i hi with hi | hi
      · exact .inr fun c => heard_of_runTask hi
      · exact .inl hi
    · exact .keep

theorem Scheduled.rescheduled {e' : Engine β Ω} {task : List CommitId} (h : Scheduled e task e') :
    Rescheduled e.schedulers e' s m e'.schedulers[s]? := by
  have insert {e' : Engine β Ω} {k : SchedulerId} {d : Scheduler} (n : Nat)
      (tasks : List (List CommitId)) (hd : e.schedulers[k]? = some d) : Rescheduled e.schedulers e' s m
        (e.schedulers.insert k { d with calls := n, tasks := d.tasks ++ tasks })[s]? := by
    simp only [Std.ExtTreeMap.getElem?_insert, Std.LawfulEqOrd.compare_eq_iff_eq]
    split
    · rename_i hk
      subst hk
      exact .more n tasks hd
    · exact .keep
  cases h with
  | atOnce =>
    obtain ⟨_, _, _, h⟩ := e.runTask_frame task
    rw [h]
    exact .keep
  | @counted k d hd =>
    obtain ⟨_, _, _, h⟩ := ({ e with
      schedulers := e.schedulers.insert k { d with calls := d.calls + 1 } }).runTask_frame task
    rw [h]
    simpa using insert (d.calls + 1) [] hd
  | queued hd => exact insert _ [task] hd
  | @lost k d hd => simpa using insert (d.calls + 1) [] hd

theorem rescheduled (hm : e.admits m) :
    Rescheduled e.schedulers (e.act m) s m (e.act m).schedulers[s]? := by
  cases m with
  | alloc | change | takeFiber | park | setFiber | setScheduler | setWatched | poll | runSync
  | settle | commit => exact .keep
  | addScheduler k mode =>
    simp only [act, Std.ExtTreeMap.getElem?_insert, Std.LawfulEqOrd.compare_eq_iff_eq]
    split
    · rename_i hk
      subst hk
      apply Rescheduled.new
      exact Std.ExtTreeMap.getElem?_eq_none_of_contains_eq_false (by simpa [admits] using hm)
    · exact .keep
  | wake w =>
    obtain ⟨_, _, h⟩ := e.wake_frame w
    simp only [act, h]
    exact .keep
  | interrupt k f =>
    obtain ⟨_, _, _, h⟩ := e.interrupt_frame k f
    simp only [act, h]
    exact .keep
  | drop k =>
    simp only [act, Engine.drop]
    cases e.commits[k]? <;> exact .keep
  | runTasks k => exact (e.drained_runTasks k).rescheduled
  | runTask k n => exact (e.drained_runNth k n).rescheduled
  | advance k =>
    obtain ⟨c, hc⟩ := exists_of_advance hm
    obtain ⟨call, p, hp⟩ := busy_of_admits hm hc
    obtain ⟨t, -, -, h | h⟩ := advance_cases hc hp
    · rw [h.2]
      exact .keep
    · exact h.rescheduled

theorem Scheduled.owes {e' : Engine β Ω} {task : List CommitId} (h : Scheduled e task e')
    (hi : id ∈ task)
    (hd : ∀ (s : SchedulerId) (d : Scheduler), e.schedulers[s]? = some d → d.mode ≠ .drop) :
    e'.Owes id ∨ ∀ c, e'.commits[id]? = some c → c.heard = c := by
  cases h with
  | atOnce | counted => exact .inr fun c => heard_of_runTask hi
  | @queued s d hs =>
    refine .inl (.inr ⟨s, _, Std.ExtTreeMap.getElem?_insert_self, ?_⟩)
    rw [List.flatten_append]
    exact List.mem_append_right _ (by simpa using hi)
  | lost hs hm => exact absurd hm (hd _ _ hs)

theorem Moved.phase_eq {c' : Commit β Ω} (h : Moved e id m c c') (hb : c.phase.isBusy)
    (hm : m ≠ .advance id) : c'.phase = c.phase := by
  cases h with
  | keep | setScheduler | setWatched | interrupt | setFiber => rfl
  | poll _ hi | refuse _ hi | runSync _ hi | settle hi => simp [hi, Phase.isBusy] at hb
  | drop => rw [Commit.drop_fst]
  | turn => exact absurd rfl hm

theorem Owes.act (ho : e.Owes id) (he : e.Tracked) (hm : e.admits m)
    (hd : ∀ (s : SchedulerId) (d : Scheduler), e.schedulers[s]? = some d → d.mode ≠ .drop) :
    (e.act m).Owes id ∨ ∀ c, (e.act m).commits[id]? = some c → c.heard = c := by
  rcases ho with ⟨k, c, hc, hi⟩ | ⟨s, d, hs, hi⟩
  · by_cases hk : m = .advance k
    · subst hk
      obtain ⟨call, p, hp⟩ := busy_of_admits hm hc
      obtain ⟨t, ht, -, h⟩ := advance_cases hc hp
      have hput : (e.turned k t).commits[k]? = some t.commit := by
        rw [turned, getElem?_put, if_pos rfl]
      rcases ht.woken hp hi with hi | hi
      · refine .inl (.inl ?_)
        rcases h with h | h
        · exact ⟨k, t.commit, by rw [h.2, hput], hi⟩
        · rcases h.getElem? (i := k) with h | ⟨-, h, -⟩
          · exact ⟨k, t.commit, by rw [h, hput], hi⟩
          · obtain ⟨g, hg, -⟩ := (Commit.Hears.heard (c := t.commit)).frame
            exact ⟨k, t.commit.heard, by rw [h, hput]; rfl, by rwa [hg]⟩
      · rcases h with h | h
        · rw [h.1] at hi
          cases hi
        · exact h.owes hi hd
    · have hb : c.phase.isBusy := by
        cases hp : c.phase with
        | busy => rfl
        | idle | answered => simp [hp, Phase.woken] at hi
      obtain ⟨c', d, hmv, hd, h⟩ := moved hm hc (he.ne_nextCommit hc)
      rw [← hmv.phase_eq hb hk] at hi
      obtain ⟨g, rfl, -⟩ := hd.frame
      exact .inl (.inl ⟨k, _, h, hi⟩)
  · have h := rescheduled (s := s) hm
    generalize hs' : (e.act m).schedulers[s]? = d' at h
    cases h with
    | keep => exact .inl (.inr ⟨s, d, hs'.trans hs, hi⟩)
    | new hn =>
      rw [hs] at hn
      cases hn
    | run rest hd' hrest =>
      rw [hs] at hd'
      cases hd'
      exact (hrest id hi).imp (fun hi => .inr ⟨s, _, hs', hi⟩) fun h => h
    | more n tasks hd' =>
      rw [hs] at hd'
      cases hd'
      refine .inl (.inr ⟨s, _, hs', ?_⟩)
      rw [List.flatten_append]
      exact List.mem_append_left _ hi

theorem owes_of_version (he : e.Tracked) (hm : e.admits m) {d : CellId} {f : FiberId}
    (hd : d ∈ e.store.cells) (hv : (e.act m).store.version d ≠ e.store.version d)
    (hi : (e.store.waiting d)[f]? = some id)
    (alone : ∀ d' k, (e.store.waiting d')[f]? = some k → k = id) : (e.act m).Owes id := by
  have h := reshaped hm
  generalize hs : (e.act m).store = s' at h
  cases h with
  | keep => exact absurd (by rw [hs]) hv
  | alloc =>
    refine absurd ?_ hv
    rw [hs, Store.version_alloc, if_neg]
    rintro rfl
    exact he.sound.nextCell_notMem hd
  | drop hc =>
    refine absurd ?_ hv
    rw [hs]
    exact (he.known _ _ hc).sameVersions_drop.version d
  | @turn k c _ _ _ _ _ hc =>
    obtain ⟨c', b, hmv, hb, h⟩ := moved hm hc (he.ne_nextCommit hc)
    cases hmv with
    | keep hn => exact absurd rfl hn
    | turn hp ht =>
      have hw := ht.mem_woken (he.known _ _ hc) hp he.sound hd hv hi alone
      obtain ⟨g, rfl, -⟩ := hb.frame
      exact .inl ⟨k, _, h, hw⟩

def parked (e : Engine β Ω) : Engine β Ω := { e with unparked := false }

def Rings (w : Waker) (x : Engine β Ω × Move β Ω) : Prop :=
  match w with
  | .task _ => Woke w x.1 (x.1.act x.2)
  | .thread => Woke w x.1.parked (x.1.parked.act x.2)

section Parked

variable (e)

theorem parked_wake (w : Waker) : (e.parked.wake w).parked = (e.wake w).parked := by
  cases w <;> rfl

theorem parked_wake? (w : Option Waker) : (e.parked.wake? w).parked = (e.wake? w).parked := by
  cases w with
  | none => rfl
  | some w => exact e.parked_wake w

theorem parked_notify (k : CommitId) : (e.parked.notify k).parked = (e.notify k).parked := by
  have hc : e.parked.commits = e.commits := rfl
  unfold notify
  rw [hc]
  cases e.commits[k]? with
  | none => rfl
  | some c =>
    by_cases h : c.isAlive = true
    · simp only [h, if_true]
      exact (e.put k _).parked_wake? _
    · simp only [h, if_false, Bool.false_eq_true]
      rfl

theorem parked_runTask (task : List CommitId) :
    (e.parked.runTask task).parked = (e.runTask task).parked := by
  unfold runTask
  induction task generalizing e with
  | nil => rfl
  | cons k task ih =>
    rw [List.foldl_cons, List.foldl_cons, ← ih (e.parked.notify k), e.parked_notify, ih]

theorem parked_schedule (s : Option SchedulerId) (task : List CommitId) :
    (e.parked.schedule s task).parked = (e.schedule s task).parked := by
  have hs : e.parked.schedulers = e.schedulers := rfl
  unfold schedule
  rw [hs]
  cases s.bind fun s => (e.schedulers[s]?).map (s, ·) with
  | none => exact e.parked_runTask task
  | some p =>
    cases hm : p.2.mode with
    | queue | drop => simp only [hm]; rfl
    | run =>
      simp only [hm]
      exact parked_runTask { e with schedulers := _ } task
    | immediate =>
      simp only [hm]
      exact e.parked_runTask task

theorem parked_act (m : Move β Ω) : (e.parked.act m).parked = (e.act m).parked := by
  have hc : e.parked.commits = e.commits := rfl
  cases m with
  | alloc | change | takeFiber | addScheduler | commit | setFiber | setScheduler | setWatched | poll
  | runSync | settle | park => rfl
  | wake w => exact e.parked_wake w
  | advance k =>
    have hst : e.parked.store = e.store := rfl
    have hw : e.parked.world = e.world := rfl
    simp only [act, Engine.advance, hc, hst, hw]
    cases e.commits[k]? with
    | none => rfl
    | some c =>
      cases hp : c.phase with
      | idle | answered => simp only [hp]; rfl
      | busy call p =>
        simp only [hp]
        split
        · rfl
        · exact parked_schedule (e.turned k _) _ _
  | interrupt k f =>
    simp only [act, Engine.interrupt, hc]
    cases e.commits[k]? with
    | none => rfl
    | some c =>
      cases hr : c.signals.interrupt with
      | none => simp only [hr]; rfl
      | some p =>
        simp only [hr]
        exact (e.put k _).parked_wake? _
  | drop k =>
    simp only [act, Engine.drop, hc]
    cases e.commits[k]? <;> rfl
  | runTasks k =>
    have hs : e.parked.schedulers = e.schedulers := rfl
    simp only [act, Engine.runTasks, hs]
    cases e.schedulers[k]? with
    | none => rfl
    | some d =>
      simp only [foldl_runTask]
      exact parked_runTask { e with schedulers := _ } d.tasks.flatten
  | runTask k n =>
    have hs : e.parked.schedulers = e.schedulers := rfl
    simp only [act, runNth, hs]
    cases e.schedulers[k]? with
    | none => rfl
    | some d => exact parked_runTask { e with schedulers := _ } _

theorem commits_parked_act (m : Move β Ω) : (e.parked.act m).commits = (e.act m).commits := by
  show (e.parked.act m).parked.commits = (e.act m).parked.commits
  rw [e.parked_act]

theorem admits_parked (m : Move β Ω) : e.parked.admits m = e.admits m := by
  cases m <;> rfl

end Parked

theorem woke_of_notified {d : Commit β Ω} {w : Waker} (hm : e.admits m)
    (hc : e.commits[id]? = some c) (hi : id ≠ e.nextCommit) (hne : m ≠ .advance id)
    (hw : c.signals.waker = some w) (hn : c.signals.notified = false)
    (hd : (e.act m).commits[id]? = some d) (hd' : d.signals.notified) : Woke w e (e.act m) := by
  obtain ⟨c', hmv, h⟩ := moved_left hm hc hi
  have hn' : c'.signals.notified = false := by
    cases hmv with
    | turn => exact absurd rfl hne
    | drop =>
      rw [Commit.drop_fst]
      exact hn
    | _ => exact hn
  cases h with
  | calm h =>
    rw [hd, Option.some.injEq] at h
    rw [h, hn'] at hd'
    cases hd'
  | heard h _ hwoke =>
    rw [hd, Option.some.injEq] at h
    rw [h] at hd'
    -- The callback has done something, so the commit was alive and running.
    have hheard : c'.isAlive ∧ c'.signals.state = .running := by
      unfold Commit.heard at hd'
      split at hd'
      · rename_i ha
        refine ⟨ha, ?_⟩
        apply Classical.byContradiction
        intro hr
        simp [Signals.notify, hr, hn'] at hd'
      · rw [hn'] at hd'
        cases hd'
    refine hwoke w hheard.1 hheard.2 ?_
    cases hmv with
    | turn => exact absurd rfl hne
    | interrupt => cases hheard.2
    | drop =>
      rw [Commit.drop_fst]
      exact hw
    | _ => exact hw

theorem rings_of_notified {d : Commit β Ω} {w : Waker} (hm : e.admits m)
    (hc : e.commits[id]? = some c) (hi : id ≠ e.nextCommit) (hne : m ≠ .advance id)
    (hw : c.signals.waker = some w) (hn : c.signals.notified = false)
    (hd : (e.act m).commits[id]? = some d) (hd' : d.signals.notified) : Rings w (e, m) := by
  cases w with
  | task t => exact woke_of_notified hm hc hi hne hw hn hd hd'
  | thread =>
    have hm' : e.parked.admits m := by rwa [admits_parked]
    have hd₀ : (e.parked.act m).commits[id]? = some d := by rw [commits_parked_act, hd]
    exact woke_of_notified hm' hc hi hne hw hn hd₀ hd'

end Engine
end TransactionalMemory
