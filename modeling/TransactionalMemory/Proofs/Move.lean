import TransactionalMemory.Proofs.History
import TransactionalMemory.Proofs.Turn

namespace TransactionalMemory

variable {β : Type} [Universe β] {Ω : Type}

theorem Signals.notify_notify (g : Signals) : g.notify.2.notify.2 = g.notify.2 := by
  by_cases h : g.state = .running <;> simp [notify, h]

theorem Commit.heard_heard (c : Commit β Ω) : c.heard.heard = c.heard := by
  unfold heard
  by_cases h : c.isAlive = true
  · have h' : ({ c with signals := c.signals.notify.2 } : Commit β Ω).isAlive = true := h
    simp only [h, h', if_true, Signals.notify_notify]
  · simp only [h, if_false, Bool.false_eq_true]

def Move.calls (id : CommitId) : Move β Ω → Bool
  | .poll k _ | .runSync k => k = id
  | _ => false

namespace Engine

variable (e : Engine β Ω) (i k : CommitId) (w : Waker) (task : List CommitId)

theorem wake_frame : ∃ ws u, e.wake w = { e with wakes := ws, unparked := u } := by
  cases w with
  | task w => exact ⟨_, e.unparked, rfl⟩
  | thread => exact ⟨e.wakes, true, rfl⟩

theorem wake?_frame (v : Option Waker) :
    ∃ ws u, e.wake? v = { e with wakes := ws, unparked := u } := by
  cases v with
  | none => exact ⟨e.wakes, e.unparked, rfl⟩
  | some w => exact e.wake_frame w

theorem notify_frame :
    ∃ cs ws u, e.notify k = { e with commits := cs, wakes := ws, unparked := u } := by
  unfold notify
  split
  · rename_i c hc
    split
    · obtain ⟨ws, u, h⟩ :=
        (e.put k { c with signals := c.signals.notify.2 }).wake?_frame c.signals.notify.1
      exact ⟨_, ws, u, h⟩
    · exact ⟨e.commits, e.wakes, e.unparked, rfl⟩
  · exact ⟨e.commits, e.wakes, e.unparked, rfl⟩

theorem runTask_frame :
    ∃ cs ws u, e.runTask task = { e with commits := cs, wakes := ws, unparked := u } := by
  unfold runTask
  induction task generalizing e with
  | nil => exact ⟨e.commits, e.wakes, e.unparked, rfl⟩
  | cons k task ih =>
    obtain ⟨_, _, _, h⟩ := e.notify_frame k
    obtain ⟨cs, ws, u, h'⟩ := ih (e.notify k)
    rw [List.foldl_cons, h', h]
    exact ⟨cs, ws, u, rfl⟩

theorem commits_wake? (v : Option Waker) : (e.wake? v).commits = e.commits := by
  obtain ⟨_, _, h⟩ := e.wake?_frame v
  rw [h]

theorem getElem?_notify :
    (e.notify k).commits[i]? =
      if k = i then (e.commits[i]?).map Commit.heard else e.commits[i]? := by
  by_cases hk : k = i
  · subst hk
    rw [if_pos rfl]
    unfold notify
    cases hc : e.commits[k]? with
    | none => simp [hc]
    | some c =>
      by_cases hl : c.isAlive = true
      · simp [hl, commits_wake?, put, Commit.heard]
      · simp [hl, hc, Commit.heard]
  · rw [if_neg hk]
    unfold notify
    cases hc : e.commits[k]? with
    | none => rfl
    | some c =>
      by_cases hl : c.isAlive = true
      · simp [hl, commits_wake?, put, Std.ExtTreeMap.getElem?_insert, hk]
      · simp [hl]

theorem getElem?_runTask :
    (e.runTask task).commits[i]? =
      if i ∈ task then (e.commits[i]?).map Commit.heard else e.commits[i]? := by
  unfold runTask
  induction task generalizing e with
  | nil => simp
  | cons k task ih =>
    rw [List.foldl_cons, ih, getElem?_notify]
    by_cases hk : k = i
    · subst hk
      cases e.commits[k]? <;> simp [Commit.heard_heard]
    · simp [hk, Ne.symm hk]

theorem foldl_runTask (tasks : List (List CommitId)) :
    tasks.foldl runTask e = e.runTask tasks.flatten := by
  induction tasks generalizing e with
  | nil => rfl
  | cons task tasks ih =>
    rw [List.foldl_cons, ih, List.flatten_cons]
    exact (List.foldl_append ..).symm

def Woke : Waker → Engine β Ω → Engine β Ω → Prop
  | .task t, e, e' => (e.wakes[t]?).getD 0 < (e'.wakes[t]?).getD 0
  | .thread, _, e' => e'.unparked

structure Louder (e e' : Engine β Ω) : Prop where
  wakes : ∀ t : WakerId, (e.wakes[t]?).getD 0 ≤ (e'.wakes[t]?).getD 0
  unparked : e.unparked → e'.unparked

variable {e i k w task} {e₁ e₂ : Engine β Ω}

theorem Louder.refl : Louder e e := ⟨fun _ => Nat.le_refl _, id⟩

theorem Louder.trans (h : Louder e e₁) (h' : Louder e₁ e₂) : Louder e e₂ :=
  ⟨fun t => Nat.le_trans (h.wakes t) (h'.wakes t), fun hu => h'.unparked (h.unparked hu)⟩

theorem Woke.louder (h : Woke w e e₁) (h' : Louder e₁ e₂) : Woke w e e₂ := by
  cases w with
  | task t => exact Nat.lt_of_lt_of_le h (h'.wakes t)
  | thread => exact h'.unparked h

theorem Louder.woke (h : Louder e e₁) (h' : Woke w e₁ e₂) : Woke w e e₂ := by
  cases w with
  | task t => exact Nat.lt_of_le_of_lt (h.wakes t) h'
  | thread => exact h'

theorem wakes_wake (t t' : WakerId) : ((e.wake (.task t)).wakes[t']?).getD 0 =
    (e.wakes[t']?).getD 0 + if t = t' then 1 else 0 := by
  simp only [wake, Std.ExtTreeMap.getElem?_alter, Std.LawfulEqOrd.compare_eq_iff_eq]
  split
  · rename_i h
    rw [h]
    rfl
  · rfl

theorem louder_wake : Louder e (e.wake w) := by
  cases w with
  | task t => exact ⟨fun t' => by rw [wakes_wake]; omega, id⟩
  | thread => exact ⟨fun _ => Nat.le_refl _, fun _ => rfl⟩

theorem woke_wake : Woke w e (e.wake w) := by
  cases w with
  | task t =>
    show _ < _
    rw [wakes_wake, if_pos rfl]
    omega
  | thread => rfl

theorem louder_notify : Louder e (e.notify k) := by
  unfold notify
  cases e.commits[k]? with
  | none => exact .refl
  | some c =>
    by_cases h : c.isAlive = true
    · simp only [h, if_true]
      have hput (g : Signals) : Louder e (e.put k { c with signals := g }) :=
        ⟨fun _ => Nat.le_refl _, id⟩
      cases c.signals.notify.1 with
      | none => exact hput _
      | some w => exact (hput _).trans louder_wake
    · simp only [h, if_false, Bool.false_eq_true]
      exact .refl

theorem louder_runTask : Louder e (e.runTask task) := by
  unfold runTask
  induction task generalizing e with
  | nil => exact .refl
  | cons k task ih => exact louder_notify.trans ih

theorem woke_notify {c : Commit β Ω} (hc : e.commits[i]? = some c) (ha : c.isAlive)
    (hr : c.signals.state = .running) (hw : c.signals.waker = some w) : Woke w e (e.notify i) := by
  simp only [notify, hc, ha, if_true, Signals.notify, hr, hw]
  have hput (g : Signals) : Louder e (e.put i { c with signals := g }) :=
    ⟨fun _ => Nat.le_refl _, id⟩
  exact (hput _).woke woke_wake

theorem woke_runTask {c : Commit β Ω} (hi : i ∈ task) (hc : e.commits[i]? = some c)
    (ha : c.isAlive) (hr : c.signals.state = .running) (hw : c.signals.waker = some w) :
    Woke w e (e.runTask task) := by
  unfold runTask
  induction task generalizing e with
  | nil => cases hi
  | cons k task ih =>
    by_cases hk : k = i
    · subst hk
      exact (woke_notify hc ha hr hw).louder louder_runTask
    · have hc' : (e.notify k).commits[i]? = some c := by rw [getElem?_notify, if_neg hk, hc]
      have hi' : i ∈ task := (List.mem_cons.1 hi).resolve_left (Ne.symm hk)
      exact louder_notify.woke (ih hi' hc')

theorem hears_runTask (ds : Std.ExtTreeMap SchedulerId Scheduler) :
    (({ e with schedulers := ds }).runTask task).commits[i]? = e.commits[i]? ∨
      (i ∈ task ∧
        (({ e with schedulers := ds }).runTask task).commits[i]? = (e.commits[i]?).map Commit.heard ∧
        ∀ c w, e.commits[i]? = some c → c.isAlive → c.signals.state = .running →
          c.signals.waker = some w → Woke w e (({ e with schedulers := ds }).runTask task)) := by
  rw [getElem?_runTask]
  by_cases hi : i ∈ task
  · refine .inr ⟨hi, by simp [hi], fun c w hc ha hr hw => ?_⟩
    have hl : Louder e { e with schedulers := ds } := ⟨fun _ => Nat.le_refl _, id⟩
    exact hl.woke (woke_runTask hi hc ha hr hw)
  · exact .inl (by simp [hi])

variable (e i k w task)

inductive Scheduled : Engine β Ω → Prop
  | atOnce : Scheduled (e.runTask task)
  | counted {s : SchedulerId} {d : Scheduler} : e.schedulers[s]? = some d →
    Scheduled (({ e with
      schedulers := e.schedulers.insert s { d with calls := d.calls + 1 } }).runTask task)
  | queued {s : SchedulerId} {d : Scheduler} : e.schedulers[s]? = some d → d.mode = .queue →
    Scheduled { e with
      schedulers :=
        e.schedulers.insert s { d with calls := d.calls + 1, tasks := d.tasks ++ [task] } }
  | lost {s : SchedulerId} {d : Scheduler} : e.schedulers[s]? = some d → d.mode = .drop →
    Scheduled { e with schedulers := e.schedulers.insert s { d with calls := d.calls + 1 } }

theorem scheduled (s : Option SchedulerId) : Scheduled e task (e.schedule s task) := by
  unfold schedule
  cases h : s.bind fun s => (e.schedulers[s]?).map (s, ·) with
  | none => exact .atOnce
  | some p =>
    obtain ⟨k, d⟩ := p
    have hd : e.schedulers[k]? = some d := by
      obtain ⟨k', -, hk⟩ := Option.bind_eq_some_iff.1 h
      obtain ⟨d', hd, he⟩ := Option.map_eq_some_iff.1 hk
      cases he
      exact hd
    simp only
    cases hm : d.mode with
    | queue => simpa [hm] using (.queued hd hm : Scheduled e task _)
    | run => simpa [hm] using (.counted hd : Scheduled e task _)
    | drop => simpa [hm] using (.lost hd hm : Scheduled e task _)
    | immediate => exact .atOnce

variable {e task} in
theorem Scheduled.frame {e' : Engine β Ω} (h : Scheduled e task e') :
    ∃ cs ds ws u, e' = { e with commits := cs, schedulers := ds, wakes := ws, unparked := u } := by
  cases h with
  | atOnce =>
    obtain ⟨cs, ws, u, h⟩ := e.runTask_frame task
    exact ⟨cs, e.schedulers, ws, u, h⟩
  | @counted s d hd =>
    obtain ⟨cs, ws, u, h⟩ := ({ e with
      schedulers := e.schedulers.insert s { d with calls := d.calls + 1 } }).runTask_frame task
    exact ⟨cs, _, ws, u, h⟩
  | queued | lost => exact ⟨e.commits, _, e.wakes, e.unparked, rfl⟩

variable {e task i} in
theorem Scheduled.getElem? {e' : Engine β Ω} (h : Scheduled e task e') :
    e'.commits[i]? = e.commits[i]? ∨
      (i ∈ task ∧ e'.commits[i]? = (e.commits[i]?).map Commit.heard ∧
        ∀ c w, e.commits[i]? = some c → c.isAlive → c.signals.state = .running →
          c.signals.waker = some w → Woke w e e') := by
  cases h with
  | atOnce => exact hears_runTask e.schedulers
  | counted => exact hears_runTask _
  | queued | lost => exact .inl rfl

theorem interrupt_frame (f : FiberId) :
    ∃ cs ws u, (e.interrupt k f).2.1 = { e with commits := cs, wakes := ws, unparked := u } := by
  unfold interrupt
  cases e.commits[k]? with
  | none => exact ⟨e.commits, e.wakes, e.unparked, rfl⟩
  | some d =>
    cases hr : d.signals.interrupt with
    | none => exact ⟨e.commits, e.wakes, e.unparked, by simp only [hr]⟩
    | some p =>
      obtain ⟨ws, u, h⟩ := (e.put k { d with signals := p.2 }).wake?_frame p.1
      exact ⟨_, ws, u, by simp only [hr, h]; rfl⟩

inductive Drained : Engine β Ω → Prop
  | idle : Drained e
  | ran {s : SchedulerId} {d : Scheduler} (task : List CommitId) (rest : List (List CommitId)) :
    e.schedulers[s]? = some d → (∀ i ∈ d.tasks.flatten, i ∈ task ∨ i ∈ rest.flatten) →
    Drained (({ e with
      schedulers := e.schedulers.insert s { d with tasks := rest } }).runTask task)

theorem drained_runTasks (s : SchedulerId) : Drained e (e.runTasks s).2 := by
  unfold runTasks
  cases h : e.schedulers[s]? with
  | none => exact .idle
  | some d =>
    simp only [foldl_runTask]
    exact .ran _ [] h fun i hi => .inl hi

theorem drained_runNth (s : SchedulerId) (n : Nat) : Drained e (e.runNth s n) := by
  unfold runNth
  cases h : e.schedulers[s]? with
  | none => exact .idle
  | some d =>
    refine .ran _ _ h fun i hi => ?_
    obtain ⟨task, ht, hi⟩ := List.mem_flatten.1 hi
    obtain ⟨k, hk⟩ := List.mem_iff_getElem?.1 ht
    by_cases hkn : k = n
    · subst hkn
      exact .inl (by simpa [hk] using hi)
    · have hrest : task ∈ d.tasks.eraseIdx n := List.mem_eraseIdx_iff_getElem?.2 ⟨k, hkn, hk⟩
      exact .inr (List.mem_flatten.2 ⟨task, hrest, hi⟩)

variable {e} in
theorem Drained.frame {e' : Engine β Ω} (h : Drained e e') :
    ∃ cs ds ws u, e' = { e with commits := cs, schedulers := ds, wakes := ws, unparked := u } := by
  cases h with
  | idle => exact ⟨e.commits, e.schedulers, e.wakes, e.unparked, rfl⟩
  | @ran s d task rest hd =>
    obtain ⟨cs, ws, u, h⟩ := ({ e with
      schedulers := e.schedulers.insert s { d with tasks := rest } }).runTask_frame task
    exact ⟨cs, _, ws, u, h⟩

variable {e i} in
theorem Drained.getElem? {e' : Engine β Ω} (h : Drained e e') :
    e'.commits[i]? = e.commits[i]? ∨
      (e'.commits[i]? = (e.commits[i]?).map Commit.heard ∧
        ∀ c w, e.commits[i]? = some c → c.isAlive → c.signals.state = .running →
          c.signals.waker = some w → Woke w e e') := by
  cases h with
  | idle => exact .inl rfl
  | ran => exact (hears_runTask _).imp_right And.right

variable {e i}

def turned (e : Engine β Ω) (i : CommitId) (t : Turn β Ω) : Engine β Ω :=
  { e with store := t.store, world := t.world }.put i t.commit

theorem louder_turned {t : Turn β Ω} : Louder e (e.turned i t) := ⟨fun _ => Nat.le_refl _, id⟩

theorem advance_cases {c : Commit β Ω} {call : Call} {p : Point β Ω} (hc : e.commits[i]? = some c)
    (hp : c.phase = .busy call p) :
    ∃ t : Turn β Ω, c.Transition i e.store e.world call p t.commit t.store t.woken ∧
      (e.act (.advance i)).store = t.store ∧
      ((t.woken = [] ∧ e.act (.advance i) = e.turned i t) ∨
        Scheduled (e.turned i t) t.woken (e.act (.advance i))) := by
  refine ⟨_, Commit.transition_run call p, ?_⟩
  generalize ht : c.run i call e.store e.world p = t
  have h : e.act (.advance i) =
      if t.woken = [] then e.turned i t else (e.turned i t).schedule c.scheduler t.woken := by
    subst ht
    simp only [act, advance, hc, hp]
    rfl
  rw [h]
  split
  · rename_i hw
    exact ⟨rfl, .inl ⟨hw, rfl⟩⟩
  · have hs := scheduled (e.turned i t) t.woken c.scheduler
    obtain ⟨_, _, _, _, hf⟩ := hs.frame
    exact ⟨by rw [hf]; rfl, .inr hs⟩

theorem held_of_isFree {c : Commit β Ω} (h : e.isFree i) (hc : e.commits[i]? = some c) :
    c.held ∧ c.phase = .idle := by
  unfold isFree at h
  rw [hc] at h
  cases hp : c.phase <;> simp_all [Phase.isIdle]

theorem busy_of_admits {c : Commit β Ω} (h : e.admits (.advance i)) (hc : e.commits[i]? = some c) :
    ∃ call p, c.phase = .busy call p := by
  simp only [admits, hc] at h
  cases hp : c.phase with
  | busy call p => exact ⟨call, p, rfl⟩
  | idle | answered => simp [hp, Phase.isBusy] at h

theorem answered_of_admits {c : Commit β Ω} (h : e.admits (.settle i))
    (hc : e.commits[i]? = some c) : ∃ a, c.phase = .answered a := by
  simp only [admits, answer?, hc] at h
  cases hp : c.phase with
  | answered a => exact ⟨a, rfl⟩
  | idle | busy => simp [hp] at h

theorem exists_of_isFree (h : e.isFree i) : ∃ c, e.commits[i]? = some c := by
  cases hc : e.commits[i]? with
  | none => simp [isFree, hc] at h
  | some c => exact ⟨c, rfl⟩

theorem exists_of_advance (h : e.admits (.advance i)) : ∃ c, e.commits[i]? = some c := by
  cases hc : e.commits[i]? with
  | none => simp [admits, hc] at h
  | some c => exact ⟨c, rfl⟩

/-- What a move makes of a commit, before any callback of it is run. -/
inductive Moved (e : Engine β Ω) (i : CommitId) : Move β Ω → Commit β Ω → Commit β Ω → Prop
  | keep {m : Move β Ω} {c : Commit β Ω} : m ≠ .advance i → m.calls i = false → Moved e i m c c
  | setFiber {c : Commit β Ω} {f : FiberId} : c.held → c.phase = .idle →
    Moved e i (.setFiber i f) c { c with fiber := f }
  | setScheduler {c : Commit β Ω} {s : Option SchedulerId} :
    Moved e i (.setScheduler i s) c { c with scheduler := s }
  | setWatched {c : Commit β Ω} {b : Bool} : Moved e i (.setWatched i b) c { c with watched := b }
  | poll {c : Commit β Ω} {w : Waker} : c.held → c.phase = .idle → c.completed = false →
    Moved e i (.poll i w) c (c.goto (.poll w) .top)
  | refuse {c : Commit β Ω} {w : Waker} : c.held → c.phase = .idle → c.completed →
    Moved e i (.poll i w) c
      (c.answer (.ready (.error (.halt (.message "commit polled after completion")))))
  | runSync {c : Commit β Ω} : c.held → c.phase = .idle →
    Moved e i (.runSync i) c (c.goto .sync .starting)
  | settle {c : Commit β Ω} {a : Answer β} : c.phase = .answered a →
    Moved e i (.settle i) c { c with phase := .idle }
  | interrupt {c : Commit β Ω} {f : FiberId} : c.signals.state = .running →
    Moved e i (.interrupt i f) c
      { c with signals := { c.signals with state := .interrupted, waker := none } }
  | drop {c : Commit β Ω} : c.held → c.phase = .idle → Moved e i (.drop i) c (c.drop e.store).1
  | turn {c c' : Commit β Ω} {call : Call} {p : Point β Ω} {woken : List CommitId} :
    c.phase = .busy call p →
    c.Transition i e.store e.world call p c' (e.act (.advance i)).store woken →
    Moved e i (.advance i) c c'

theorem getElem?_modify {f : Commit β Ω → Commit β Ω} (k : CommitId) :
    (e.modify k f).commits[i]? = if k = i then (e.commits[i]?).map f else e.commits[i]? := by
  simp only [modify, Std.ExtTreeMap.getElem?_modify, Std.LawfulEqOrd.compare_eq_iff_eq]
  split
  · rename_i h; subst h; rfl
  · rfl

theorem getElem?_put {c : Commit β Ω} (k : CommitId) :
    (e.put k c).commits[i]? = if k = i then some c else e.commits[i]? := by
  simp only [put, Std.ExtTreeMap.getElem?_insert, Std.LawfulEqOrd.compare_eq_iff_eq]

/-- What there is of a commit after a move that makes `c'` of it: `c'`, or what is left when it has
heard a callback. -/
inductive Left (e : Engine β Ω) (i : CommitId) (m : Move β Ω) (c c' : Commit β Ω) : Prop
  | calm : (e.act m).commits[i]? = some c' → Left e i m c c'
  | heard : (e.act m).commits[i]? = some c'.heard →
    (m = .advance i → ∃ call r woken, c.phase = .busy call (.waking r woken)) →
    (∀ w, c'.isAlive → c'.signals.state = .running → c'.signals.waker = some w →
      Woke w e (e.act m)) → Left e i m c c'

section Left

variable {c : Commit β Ω} {k : CommitId}

theorem left_own_advance (hm : e.admits (.advance i)) (hc : e.commits[i]? = some c) :
    ∃ c', Moved e i (.advance i) c c' ∧ Left e i (.advance i) c c' := by
  obtain ⟨call, p, hp⟩ := busy_of_admits hm hc
  obtain ⟨t, ht, hs, h⟩ := advance_cases hc hp
  rw [← hs] at ht
  refine ⟨t.commit, .turn hp ht, ?_⟩
  have hput : (e.turned i t).commits[i]? = some t.commit := by
    rw [turned, getElem?_put, if_pos rfl]
  rcases h with h | h
  · exact .calm (by rw [h.2, hput])
  · rcases h.getElem? (i := i) with h | ⟨hi, h, hwoke⟩
    · exact .calm (by rw [h, hput])
    · refine .heard (by rw [h, hput]; rfl) (fun _ => ?_)
        fun w ha hr hw => louder_turned.woke (hwoke t.commit w hput ha hr hw)
      obtain ⟨r, rfl⟩ := ht.eq_waking (List.ne_nil_of_mem hi)
      exact ⟨call, r, _, hp⟩

theorem left_advance (hm : e.admits (.advance k)) (hc : e.commits[i]? = some c) (hk : k ≠ i) :
    Left e i (.advance k) c c := by
  cases hck : e.commits[k]? with
  | none => exact .calm (by simp [act, Engine.advance, hck, hc])
  | some d =>
    obtain ⟨call, p, hp⟩ := busy_of_admits hm hck
    obtain ⟨t, -, -, h⟩ := advance_cases hck hp
    have hput : (e.turned k t).commits[i]? = some c := by
      rw [turned, getElem?_put, if_neg hk, hc]
    rcases h with h | h
    · exact .calm (by rw [h.2, hput])
    · rcases h.getElem? (i := i) with h | ⟨-, h, hwoke⟩
      · exact .calm (by rw [h, hput])
      · refine .heard (by rw [h, hput]; rfl) (fun hn => ?_)
          fun w ha hr hw => louder_turned.woke (hwoke c w hput ha hr hw)
        exact absurd (Move.advance.inj hn) hk

theorem getElem?_interrupt (f : FiberId) (hc : e.commits[i]? = some c) :
    (e.act (.interrupt i f)).commits[i]? = if c.signals.state = .running then
      some { c with signals := { c.signals with state := .interrupted, waker := none } }
    else some c := by
  by_cases hr : c.signals.state = .running
  · simp [act, Engine.interrupt, hc, Signals.interrupt, hr, commits_wake?, put]
  · simp [act, Engine.interrupt, hc, Signals.interrupt, hr]

theorem getElem?_interrupt_of_ne (f : FiberId) (hk : k ≠ i) :
    (e.act (.interrupt k f)).commits[i]? = e.commits[i]? := by
  cases hd : e.commits[k]? with
  | none => simp [act, Engine.interrupt, hd]
  | some d =>
    by_cases hr : d.signals.state = .running
    · simp [act, Engine.interrupt, hd, Signals.interrupt, hr, commits_wake?, getElem?_put, hk]
    · simp [act, Engine.interrupt, hd, Signals.interrupt, hr]

theorem getElem?_drop_of_ne (hk : k ≠ i) : (e.act (.drop k)).commits[i]? = e.commits[i]? := by
  cases hd : e.commits[k]? with
  | none => simp [act, Engine.drop, hd]
  | some d => simp [act, Engine.drop, hd, getElem?_put, hk]

theorem left_interrupt (f : FiberId) (hc : e.commits[i]? = some c) (hk : k ≠ i) :
    Left e i (.interrupt k f) c c :=
  .calm ((getElem?_interrupt_of_ne f hk).trans hc)

theorem left_drop (hc : e.commits[i]? = some c) (hk : k ≠ i) : Left e i (.drop k) c c :=
  .calm ((getElem?_drop_of_ne hk).trans hc)

theorem Drained.left {m : Move β Ω} (h : Drained e (e.act m)) (hm : m ≠ .advance i)
    (hc : e.commits[i]? = some c) : Left e i m c c := by
  rcases h.getElem? (i := i) with h | ⟨h, hwoke⟩
  · exact .calm (h.trans hc)
  · exact .heard (by rw [h, hc]; rfl) (absurd · hm) fun w => hwoke c w hc

end Left

theorem moved_left {m : Move β Ω} {c : Commit β Ω} (hm : e.admits m) (hc : e.commits[i]? = some c)
    (hi : i ≠ e.nextCommit) : ∃ c', Moved e i m c c' ∧ Left e i m c c' := by
  -- A move that speaks of another commit, or of none, leaves this one as it is.
  have other (k : CommitId) (f : Commit β Ω → Commit β Ω) (hk : k ≠ i) :
      (e.modify k f).commits[i]? = some c := by rw [getElem?_modify, if_neg hk, hc]
  have own (f : Commit β Ω → Commit β Ω) : (e.modify i f).commits[i]? = some (f c) := by
    rw [getElem?_modify, if_pos rfl, hc]
    rfl
  cases m with
  | alloc | change | takeFiber | addScheduler | park => exact ⟨c, .keep nofun rfl, .calm hc⟩
  | wake w =>
    obtain ⟨_, _, h⟩ := e.wake_frame w
    exact ⟨c, .keep nofun rfl, .calm (by simp only [act, h, hc])⟩
  | commit t E A s =>
    refine ⟨c, .keep nofun rfl, .calm ?_⟩
    simp only [act, commit, freshFiber, getElem?_put]
    rw [if_neg (Ne.symm hi), hc]
  | setFiber k f =>
    by_cases hk : k = i
    · subst hk
      obtain ⟨hh, hp⟩ := held_of_isFree hm hc
      exact ⟨_, .setFiber hh hp, .calm (own _)⟩
    · exact ⟨c, .keep nofun rfl, .calm (other k _ hk)⟩
  | setScheduler k s =>
    by_cases hk : k = i
    · subst hk
      exact ⟨_, .setScheduler, .calm (own _)⟩
    · exact ⟨c, .keep nofun rfl, .calm (other k _ hk)⟩
  | setWatched k b =>
    by_cases hk : k = i
    · subst hk
      exact ⟨_, .setWatched, .calm (own _)⟩
    · exact ⟨c, .keep nofun rfl, .calm (other k _ hk)⟩
  | poll k w =>
    by_cases hk : k = i
    · subst hk
      obtain ⟨hh, hp⟩ := held_of_isFree hm hc
      have h : (e.act (.poll k w)).commits[k]? = some (if c.completed then
          c.answer (.ready (.error (.halt (.message "commit polled after completion"))))
        else c.goto (.poll w) .top) := own _
      cases hd : c.completed with
      | true => exact ⟨_, .refuse hh hp hd, .calm (by rw [h, if_pos hd])⟩
      | false => exact ⟨_, .poll hh hp hd, .calm (by rw [h, hd]; rfl)⟩
    · exact ⟨c, .keep nofun (decide_eq_false hk), .calm (other k _ hk)⟩
  | runSync k =>
    by_cases hk : k = i
    · subst hk
      obtain ⟨hh, hp⟩ := held_of_isFree hm hc
      exact ⟨_, .runSync hh hp, .calm (own _)⟩
    · exact ⟨c, .keep nofun (decide_eq_false hk), .calm (other k _ hk)⟩
  | settle k =>
    by_cases hk : k = i
    · subst hk
      obtain ⟨a, hp⟩ := answered_of_admits hm hc
      exact ⟨_, .settle hp, .calm (own _)⟩
    · exact ⟨c, .keep nofun rfl, .calm (other k _ hk)⟩
  | advance k =>
    by_cases hk : k = i
    · subst hk
      exact left_own_advance hm hc
    · exact ⟨c, .keep (fun h => hk (Move.advance.inj h)) rfl, left_advance hm hc hk⟩
  | interrupt k f =>
    by_cases hk : k = i
    · subst hk
      have h := getElem?_interrupt f hc
      by_cases hr : c.signals.state = .running
      · exact ⟨_, .interrupt hr, .calm (h.trans (if_pos hr))⟩
      · exact ⟨c, .keep nofun rfl, .calm (h.trans (if_neg hr))⟩
    · exact ⟨c, .keep nofun rfl, left_interrupt f hc hk⟩
  | drop k =>
    by_cases hk : k = i
    · subst hk
      obtain ⟨hh, hp⟩ := held_of_isFree hm hc
      refine ⟨_, .drop hh hp, .calm ?_⟩
      simp only [act, Engine.drop, hc, getElem?_put, if_true]
    · exact ⟨c, .keep nofun rfl, left_drop hc hk⟩
  | runTasks s => exact ⟨c, .keep nofun rfl, (drained_runTasks e s).left nofun hc⟩
  | runTask s n => exact ⟨c, .keep nofun rfl, (drained_runNth e s n).left nofun hc⟩

theorem Left.hears {m : Move β Ω} {c c' d : Commit β Ω} (h : Left e i m c c')
    (hd : (e.act m).commits[i]? = some d) : c'.Hears d ∧ (m = .advance i →
      (∀ call r woken, c.phase ≠ .busy call (.waking r woken)) → d = c') := by
  cases h with
  | calm h =>
    obtain rfl : d = c' := Option.some.inj (hd.symm.trans h)
    exact ⟨.calm, fun _ _ => rfl⟩
  | heard h hwaking =>
    obtain rfl : d = c'.heard := Option.some.inj (hd.symm.trans h)
    refine ⟨.heard, fun hm hn => ?_⟩
    obtain ⟨call, r, woken, hp⟩ := hwaking hm
    exact absurd hp (hn call r woken)

theorem moved {m : Move β Ω} {c : Commit β Ω} (hm : e.admits m) (hc : e.commits[i]? = some c)
    (hi : i ≠ e.nextCommit) :
    ∃ c' d, Moved e i m c c' ∧ c'.Hears d ∧ (e.act m).commits[i]? = some d := by
  obtain ⟨c', hmv, h⟩ := moved_left hm hc hi
  cases h with
  | calm h => exact ⟨c', _, hmv, .calm, h⟩
  | heard h => exact ⟨c', _, hmv, .heard, h⟩

theorem fresh_of_act {m : Move β Ω} {c : Commit β Ω} (hm : e.admits m) (hc : e.commits[i]? = none)
    (hc' : (e.act m).commits[i]? = some c) :
    ∃ t E A s, m = .commit t E A s ∧ i = e.nextCommit ∧
      c = { tree := t, errorTy := E, valueTy := A, fiber := e.nextFiber, scheduler := s } := by
  have modified (k : CommitId) (f : Commit β Ω → Commit β Ω) :
      (e.modify k f).commits[i]? = none := by
    rw [getElem?_modify]
    split <;> simp [hc]
  have drained {e' : Engine β Ω} (h : Drained e e') : e'.commits[i]? ≠ some c := by
    rcases h.getElem? (i := i) with h | ⟨h, -⟩ <;> simp [h, hc]
  -- A commit that a move writes back was there before.
  have absent {k : CommitId} {d : Commit β Ω} (hd : e.commits[k]? = some d) : k ≠ i := by
    rintro rfl
    rw [hc] at hd
    cases hd
  cases m with
  | alloc | change | takeFiber | addScheduler | park =>
    exact absurd (hc.symm.trans hc') (by simp)
  | wake w =>
    obtain ⟨_, _, h⟩ := e.wake_frame w
    simp [act, h, hc] at hc'
  | commit t E A s =>
    simp only [act, commit, freshFiber, getElem?_put] at hc'
    split at hc'
    · rename_i hi
      cases hc'
      exact ⟨t, E, A, s, rfl, hi.symm, rfl⟩
    · rw [hc] at hc'
      cases hc'
  | setFiber k f | setScheduler k s | setWatched k b | poll k w | runSync k | settle k =>
    exact absurd ((modified k _).symm.trans hc') (by simp)
  | advance k =>
    cases hd : e.commits[k]? with
    | none => simp [act, Engine.advance, hd, hc] at hc'
    | some d =>
      obtain ⟨call, p, hp⟩ := busy_of_admits hm hd
      obtain ⟨t, -, -, h | h⟩ := advance_cases hd hp
      · rw [h.2, turned, getElem?_put, if_neg (absent hd), hc] at hc'
        cases hc'
      · rcases h.getElem? (i := i) with h | ⟨-, h, -⟩ <;>
          · rw [h, turned, getElem?_put, if_neg (absent hd), hc] at hc'
            cases hc'
  | interrupt k f =>
    cases hd : e.commits[k]? with
    | none => simp [act, Engine.interrupt, hd, hc] at hc'
    | some d =>
      by_cases hr : d.signals.state = .running <;>
        simp [act, Engine.interrupt, hd, Signals.interrupt, hr, commits_wake?, getElem?_put,
          absent hd, hc] at hc'
  | drop k =>
    cases hd : e.commits[k]? with
    | none => simp [act, Engine.drop, hd, hc] at hc'
    | some d => simp [act, Engine.drop, hd, getElem?_put, absent hd, hc] at hc'
  | runTasks s => exact absurd hc' (drained (e.drained_runTasks s))
  | runTask s n => exact absurd hc' (drained (e.drained_runNth s n))

theorem nextCommit_act {m : Move β Ω} (hm : e.admits m) :
    (e.act m).nextCommit = e.nextCommit ∨
      (∃ t E A s, m = .commit t E A s) ∧ (e.act m).nextCommit = e.nextCommit.next := by
  cases m with
  | commit t E A s => exact .inr ⟨⟨t, E, A, s, rfl⟩, rfl⟩
  | alloc | change | takeFiber | addScheduler | park | setFiber | setScheduler | setWatched | poll
  | runSync | settle => exact .inl rfl
  | wake w =>
    obtain ⟨_, _, h⟩ := e.wake_frame w
    exact .inl (by simp only [act, h])
  | advance k =>
    refine .inl ?_
    cases hd : e.commits[k]? with
    | none => simp [act, Engine.advance, hd]
    | some d =>
      obtain ⟨call, p, hp⟩ := busy_of_admits hm hd
      obtain ⟨t, -, -, h | h⟩ := advance_cases hd hp
      · rw [h.2]
        rfl
      · obtain ⟨_, _, _, _, h⟩ := h.frame
        rw [h]
        rfl
  | interrupt k f =>
    obtain ⟨_, _, _, h⟩ := e.interrupt_frame k f
    exact .inl (by simp only [act, h])
  | drop k =>
    refine .inl ?_
    simp only [act, Engine.drop]
    cases e.commits[k]? <;> rfl
  | runTasks s =>
    obtain ⟨_, _, _, _, h⟩ := (e.drained_runTasks s).frame
    exact .inl (by simp only [act, h])
  | runTask s n =>
    obtain ⟨_, _, _, _, h⟩ := (e.drained_runNth s n).frame
    exact .inl (by simp only [act, h])

inductive Reshaped (e : Engine β Ω) : Move β Ω → Store β → Prop
  | keep {m : Move β Ω} : (∀ v, m ≠ .alloc v) → (∀ i, m ≠ .drop i) → (∀ i, m ≠ .advance i) →
    Reshaped e m e.store
  | alloc {v : Any β} : Reshaped e (.alloc v) (e.store.alloc v).2
  | drop {i : CommitId} {c : Commit β Ω} : e.commits[i]? = some c → c.held → c.phase = .idle →
    Reshaped e (.drop i) (c.drop e.store).2
  | turn {i : CommitId} {c c' : Commit β Ω} {call : Call} {p : Point β Ω} {s' : Store β}
      {woken : List CommitId} :
    e.commits[i]? = some c → c.phase = .busy call p →
    c.Transition i e.store e.world call p c' s' woken → Reshaped e (.advance i) s'

theorem reshaped {m : Move β Ω} (hm : e.admits m) : Reshaped e m (e.act m).store := by
  cases m with
  | alloc v => exact .alloc
  | change | takeFiber | addScheduler | park | setFiber | setScheduler | setWatched | poll | runSync
  | settle | commit => exact .keep nofun nofun nofun
  | wake w =>
    obtain ⟨_, _, h⟩ := e.wake_frame w
    simp only [act, h]
    exact .keep nofun nofun nofun
  | advance k =>
    cases hd : e.commits[k]? with
    | none => simp [admits, hd] at hm
    | some d =>
      obtain ⟨call, p, hp⟩ := busy_of_admits hm hd
      obtain ⟨t, ht, hs, -⟩ := advance_cases hd hp
      rw [hs]
      exact .turn hd hp ht
  | interrupt k f =>
    obtain ⟨_, _, _, h⟩ := e.interrupt_frame k f
    simp only [act, h]
    exact .keep nofun nofun nofun
  | drop k =>
    cases hd : e.commits[k]? with
    | none => simp [admits, isFree, hd] at hm
    | some d =>
      obtain ⟨hh, hp⟩ := held_of_isFree hm hd
      simp only [act, Engine.drop, hd]
      exact .drop hd hh hp
  | runTasks s =>
    obtain ⟨_, _, _, _, h⟩ := (e.drained_runTasks s).frame
    simp only [act, h]
    exact .keep nofun nofun nofun
  | runTask s n =>
    obtain ⟨_, _, _, _, h⟩ := (e.drained_runNth s n).frame
    simp only [act, h]
    exact .keep nofun nofun nofun

end Engine
end TransactionalMemory
