import TransactionalMemory.Proofs.Registration
import TransactionalMemory.Proofs.Serializability

namespace TransactionalMemory

variable {β : Type} [Universe β] {Ω : Type}

namespace Move

def handles (id : CommitId) : Move β Ω → Bool
  | .setFiber k _ | .setScheduler k _ | .poll k _ | .runSync k | .settle k | .drop k => k = id
  | _ => false

def meddles (id : CommitId) : Move β Ω → Bool
  | .interrupt k _ | .setWatched k _ => k = id
  | _ => false

end Move

namespace Commit

structure Polled (c : Commit β Ω) : Prop where
  held : c.held
  called : ∀ call p, c.phase = .busy call p → ∃ w, call = .poll w

structure Spent (c : Commit β Ω) : Prop where
  gone : c.held = false
  still : c.phase.isBusy = false
  waits : c.suspended = none

def Synced (c : Commit β Ω) : Prop :=
  (∃ p, c.phase = .busy .sync p) ∨ c.Spent ∧ ∃ r, c.phase = .answered (.ready r)

inductive Kept (c : Commit β Ω) : Prop
  | fresh : c.signals.state = .running → c.phase.result? = none → c.completed = false →
    (∀ call, c.phase ≠ .busy call .leaving) → Kept c
  | done {v : Any β} : c.signals.state = .done → c.phase.result? = some (.ok v) → Kept c

variable {id : CommitId} {c c' : Commit β Ω} {s s' : Store β} {ω : Ω} {call : Call} {p : Point β Ω}
  {woken : List CommitId} {g : Signals} {b : Bool}

theorem Polled.of_still (hh : c.held) (hb : c.phase.isBusy = false) : c.Polled := by
  refine ⟨hh, fun call p hp => ?_⟩
  rw [hp] at hb
  cases hb

theorem Kept.of_still (hs : c.signals.state = .running) (hn : c.phase.result? = none)
    (hf : c.completed = false) (hb : c.phase.isBusy = false) : c.Kept := by
  refine .fresh hs hn hf fun call hp => ?_
  rw [hp] at hb
  cases hb

theorem Polled.aside (h : c.Polled) : { c with signals := g, watched := b }.Polled :=
  ⟨h.held, h.called⟩

theorem Spent.aside (h : c.Spent) : { c with signals := g, watched := b }.Spent :=
  ⟨h.gone, h.still, h.waits⟩

theorem Synced.aside (h : c.Synced) : { c with signals := g, watched := b }.Synced :=
  h.imp_right fun ⟨hs, ha⟩ => ⟨hs.aside, ha⟩

theorem Kept.aside (h : c.Kept) (hg : g.state = c.signals.state) :
    { c with signals := g, watched := b }.Kept := by
  cases h with
  | fresh hr hn hf hl => exact .fresh (hg.trans hr) hn hf hl
  | done hd hv => exact .done (hg.trans hd) hv

theorem Transition.polled (h : c.Transition id s ω call p c' s' woken) (hc : c.Polled)
    (hp : c.phase = .busy call p) : c'.Polled := by
  obtain ⟨w, rfl⟩ := hc.called call p hp
  cases h with
  | stall => exact ⟨hc.held, hc.called⟩
  | leave | finish =>
    rw [finish_fst]
    exact ⟨by simp [hc.held], nofun⟩
  | sleep | rest => exact ⟨hc.held, nofun⟩
  | stop | resume | begin | giveUp | attempt | launch | step | park | rerun | discard | lose | conclude
  | publish | skip | tell | wake | stir =>
    refine ⟨hc.held, ?_⟩
    rintro call q ⟨⟩
    exact ⟨w, rfl⟩

theorem Transition.synced (h : c.Transition id s ω .sync p c' s' woken) (ht : c.Tidy)
    (hp : c.phase = .busy .sync p)
    (hn : ∀ m, p = .running m → m.journal.isValid s → m.outcome? ≠ some .retry) : c'.Synced := by
  cases h with
  | refuse ho hv => exact absurd ho (hn _ rfl hv)
  | leave | finish =>
    rw [finish_fst]
    exact .inr ⟨⟨by simp, rfl, rfl⟩, _, rfl⟩
  | rest => cases (ht.called _ _ _ hp).choose_spec
  | stop | begin | giveUp | attempt | launch | step | rerun | discard | lose | conclude | publish | skip
  | tell | wake | stir => exact .inl ⟨_, rfl⟩

theorem Transition.kept (h : c.Transition id s ω call p c' s' woken) (hc : c.Kept)
    (hp : c.phase = .busy call p)
    (hr : ∀ m, p = .running m → call = .sync → m.journal.isValid s → m.outcome? ≠ some .retry)
    (hpub : ∀ r w, c.signals.state = .running → c'.signals.state = .done →
      c'.phase = .busy call (.published r w) → ∃ v, r = .ok v) : c'.Kept := by
  cases hc with
  | fresh hs hn hf hl =>
    rw [hp] at hn
    cases h with
    | stop hi | giveUp hi | stall hi => cases hs.symm.trans hi
    | lose _ _ _ hi => exact absurd hs hi
    | leave => exact absurd hp (hl call)
    | refuse ho hv => exact absurd ho (hr _ rfl rfl hv)
    | conclude | publish =>
      obtain ⟨v, rfl⟩ := hpub _ _ hs rfl rfl
      exact .done rfl rfl
    | skip | tell | wake | finish => cases hn
    | resume | sleep | begin | attempt | launch | step | park | rerun | discard | rest | stir =>
      exact .fresh hs rfl hf nofun
  | done hd hv =>
    rw [hp] at hv
    cases h with
    | skip | tell | wake => exact .done hd hv
    | finish =>
      rw [finish_fst]
      exact .done hd hv
    | stop | stall | resume | sleep | begin | leave | giveUp | attempt | launch | step | refuse | park
    | rerun | discard | lose | conclude | publish | rest | stir => cases hv

end Commit

namespace Engine

variable {e : Engine β Ω} {m : Move β Ω} {id : CommitId} {c c' : Commit β Ω}

/-- What becomes of a commit whose handle the move does not need: it is as before, up to what callbacks
and interrupters do, or has had a turn. -/
theorem aside (he : e.Tracked) (hm : e.admits m) (hh : m.handles id = false)
    (hc : e.commits[id]? = some c) :
    (∃ g b, (e.act m).commits[id]? = some { c with signals := g, watched := b } ∧
      (m.meddles id = false → g.state = c.signals.state)) ∨
    (m = .advance id ∧ ∃ call p c' woken g, c.phase = .busy call p ∧
      c.Transition id e.store e.world call p c' (e.act m).store woken ∧
      (e.act m).commits[id]? = some { c' with signals := g } ∧ g.state = c'.signals.state) := by
  obtain ⟨c', d, hmv, hd, h⟩ := moved hm hc (he.ne_nextCommit hc)
  obtain ⟨g, rfl, hg⟩ := hd.frame
  cases hmv with
  | keep => exact .inl ⟨g, c.watched, h, fun _ => hg⟩
  | setWatched => exact .inl ⟨g, _, h, fun _ => hg⟩
  | interrupt => exact .inl ⟨g, c.watched, h, fun hn => by simp [Move.meddles] at hn⟩
  | turn hp ht => exact .inr ⟨rfl, _, _, _, _, g, hp, ht, h, hg⟩
  | setFiber | setScheduler | poll | refuse | runSync | settle | drop => simp [Move.handles] at hh

theorem aside_of {P : Commit β Ω → Prop} (he : e.Tracked) (hm : e.admits m)
    (hh : m.handles id = false) (hc : e.commits[id]? = some c) (hP : P c)
    (calm : ∀ c g b, P c → P { c with signals := g, watched := b })
    (turn : ∀ call p c' s' woken, c.phase = .busy call p →
      c.Transition id e.store e.world call p c' s' woken → P c') :
    ∃ c', (e.act m).commits[id]? = some c' ∧ P c' := by
  rcases aside he hm hh hc with ⟨g, b, hc', -⟩ | ⟨-, call, p, c', woken, g, hp, ht, hc', -⟩
  · exact ⟨_, hc', calm c g b hP⟩
  · exact ⟨_, hc', calm c' g c'.watched (turn call p c' _ woken hp ht)⟩

end Engine

namespace Engine

theorem spent_act {e : Engine β Ω} {m : Move β Ω} {id : CommitId} {c c' : Commit β Ω} (he : e.Tracked)
    (hm : e.admits m) (hc : e.commits[id]? = some c) (hs : c.Spent)
    (hc' : (e.act m).commits[id]? = some c') :
    c'.Spent ∧ (c'.signals.state = .done → c.signals.state = .done) := by
  have gone (hh : c.held = true) : False := by
    rw [hs.gone] at hh
    cases hh
  obtain ⟨b, d, hmv, hd, h⟩ := moved hm hc (he.ne_nextCommit hc)
  cases hc'.symm.trans h
  have hb : b.Spent ∧ (b.signals.state = .done → c.signals.state = .done) := by
    cases hmv with
    | keep | setScheduler | setWatched => exact ⟨⟨hs.gone, hs.still, hs.waits⟩, fun hd => hd⟩
    | interrupt => exact ⟨⟨hs.gone, hs.still, hs.waits⟩, nofun⟩
    | settle => exact ⟨⟨hs.gone, rfl, hs.waits⟩, fun hd => hd⟩
    | setFiber hh | poll hh | refuse hh | runSync hh | drop hh => exact (gone hh).elim
    | turn hp => simpa [hp, Phase.isBusy] using hs.still
  obtain ⟨g, rfl, hg⟩ := hd.frame
  exact ⟨⟨hb.1.gone, hb.1.still, hb.1.waits⟩, fun hd => hb.2 (hg ▸ hd)⟩

end Engine

namespace Store

variable {s t : Store β} {d : CellId} {f g : FiberId} {k id : CommitId} {j : Journal β}

theorem getElem?_waiting_release {c : Commit β Ω} (h : ((c.release s).2.waiting d)[f]? = some k) :
    (s.waiting d)[f]? = some k ∧ ∀ j, c.suspended = some j → d ∈ j.entries → f ≠ c.fiber := by
  unfold Commit.release at h
  cases hs : c.suspended with
  | none =>
    rw [hs] at h
    exact ⟨h, nofun⟩
  | some j =>
    rw [hs] at h
    simp only [Journal.unwatch, getElem?_waiting_leave] at h
    split at h
    · cases h
    · rename_i hn
      refine ⟨h, ?_⟩
      rintro _ ⟨⟩ hd rfl
      exact hn ⟨hd, rfl⟩

theorem getElem?_waiting_follow {c : Commit β Ω} (h : ((c.follow id s j).2.waiting d)[f]? = some k) :
    (k = id ∧ f = c.fiber ∧ d ∈ j.awaited) ∨ (s.waiting d)[f]? = some k ∧
      ((∃ i, c.suspended = some i ∧ d ∈ i.untracked j) → f ≠ c.fiber) := by
  obtain ⟨t, ht, -, hw⟩ := follow_eq c id s j
  have old (h : (t.waiting d)[f]? = some k) : (s.waiting d)[f]? = some k ∧
      ((∃ i, c.suspended = some i ∧ d ∈ i.untracked j) → f ≠ c.fiber) := by
    rw [hw] at h
    split at h
    · cases h
    · rename_i hn
      exact ⟨h, fun hi hf => hn ⟨hi, hf.symm⟩⟩
  rw [ht, getElem?_waiting_watch] at h
  split at h
  · rename_i hd
    cases hx : (t.waiting d)[f]? with
    | none =>
      rw [hx] at h
      cases h
      exact .inl ⟨rfl, hd.2.symm, hd.1⟩
    | some i =>
      rw [hx] at h
      cases h
      exact .inr (old hx)
  · exact .inr (old h)

theorem getElem?_waiting_publish {w : Waiting} {i : Journal β} (h : j.publish s = .ok (w, t, i))
    (hd : (t.waiting d)[f]? = some k) : (s.waiting d)[f]? = some k := by
  rcases Journal.cell_publish h d with ⟨x, v, -, -, e⟩ | ⟨-, e⟩
  · simp [waiting, e] at hd
  · simpa only [waiting, e] using hd

end Store

theorem Commit.Transition.waiting {id k : CommitId} {c c' : Commit β Ω} {s s' : Store β} {ω : Ω}
    {call : Call} {p : Point β Ω} {woken : List CommitId} {d : CellId} {f : FiberId}
    (h : c.Transition id s ω call p c' s' woken) (hs : s.Sound)
    (hk : (s'.waiting d)[f]? = some k) : (s.waiting d)[f]? = some k ∨
      k = id ∧ f = c.fiber ∧ ∃ j, c'.watching = some j ∧ d ∈ j.awaited := by
  cases h with
  | stop | stall | resume | sleep | begin | giveUp | attempt | launch | rerun | discard | lose
  | conclude | skip | tell | wake | rest | stir => exact .inl hk
  | leave | finish =>
    rw [finish_snd] at hk
    exact .inl (Store.getElem?_waiting_release hk).1
  | refuse =>
    rw [drop_snd] at hk
    exact .inl (Store.getElem?_waiting_release hk).1
  | @step _ m ho =>
    refine .inl ?_
    rcases (Machine.logged (m := m) (f := c.fiber) (s := s) (ω := ω)).store with e | ⟨v, e⟩
    · rwa [e] at hk
    · rwa [e, Store.waiting_alloc v hs] at hk
  | publish _ _ _ _ hpub => exact .inl (Store.getElem?_waiting_publish hpub hk)
  | park =>
    rcases Store.getElem?_waiting_follow hk with ⟨rfl, rfl, hd⟩ | ⟨hk, -⟩
    · exact .inr ⟨rfl, rfl, _, rfl, hd⟩
    · exact .inl hk

namespace Engine

variable {h : History β Ω} {e : Engine β Ω} {m : Move β Ω} {id k : CommitId} {c : Commit β Ω}
  {d : CellId} {f : FiberId}

theorem waiting_act (he : e.Tracked) (hm : e.admits m) (hk : ((e.act m).store.waiting d)[f]? = some k) :
    (e.store.waiting d)[f]? = some k ∨ m = .advance k := by
  have hs := reshaped hm
  generalize (e.act m).store = t at hs hk
  cases hs with
  | keep => exact .inl hk
  | alloc => exact .inl (by rwa [Store.waiting_alloc _ he.sound] at hk)
  | drop => exact .inl (Store.getElem?_waiting_release (c := _) hk).1
  | turn hc hp ht =>
    rcases ht.waiting he.sound hk with hk | ⟨rfl, -⟩
    · exact .inl hk
    · exact .inr rfl

end Engine

theorem Run.mem_of_waiting {h : History β Ω} {e : Engine β Ω} (r : Run h e) {d : CellId}
    {f : FiberId} {k : CommitId} (hk : (e.store.waiting d)[f]? = some k) :
    ∃ c, e.commits[k]? = some c := by
  induction r with
  | start ω =>
    rw [Store.waiting_of_notMem (by simp)] at hk
    simp at hk
  | @next h e m r hm ih =>
    have hc : ∃ c, e.commits[k]? = some c := by
      rcases Engine.waiting_act r.tracked hm hk with hk | rfl
      · exact ih hk
      · exact Engine.exists_of_advance hm
    obtain ⟨c, hc⟩ := hc
    obtain ⟨_, d, -, -, hd⟩ := Engine.moved hm hc (r.tracked.ne_nextCommit hc)
    exact ⟨d, hd⟩

namespace Commit

def Listed (c : Commit β Ω) (id : CommitId) (s : Store β) : Prop :=
  ∀ (d : CellId) (f : FiberId), (s.waiting d)[f]? = some id →
    ∃ j, c.watch? = some (f, j) ∧ d ∈ j.awaited

variable {id : CommitId} {c c' : Commit β Ω} {s s' : Store β} {ω : Ω} {call : Call} {p : Point β Ω}
  {woken : List CommitId} {d : CellId} {f : FiberId}

theorem Listed.not_released (h : c.Listed id s) (hp : c.phase.isParking = false) :
    ((c.release s).2.waiting d)[f]? ≠ some id := by
  intro hk
  obtain ⟨hk, hn⟩ := Store.getElem?_waiting_release hk
  obtain ⟨j, hw, hd⟩ := h d f hk
  rw [watch?_eq hp, Option.map_eq_some_iff] at hw
  obtain ⟨j', hj, heq⟩ := hw
  cases heq
  obtain ⟨x, hx, -⟩ := (Journal.mem_awaited _ d).1 hd
  exact hn _ hj (Std.ExtTreeMap.mem_iff_isSome_getElem?.2 (by simp [hx])) rfl

theorem Transition.listed (h : c.Transition id s ω call p c' s' woken) (hl : c.Listed id s)
    (ht : c.Tidy) (hp : c.phase = .busy call p) (hs : s.Sound) : c'.Listed id s' := by
  intro d f hk
  have same (hw : c'.watch? = c.watch?) (hk : (s.waiting d)[f]? = some id) :
      ∃ j, c'.watch? = some (f, j) ∧ d ∈ j.awaited := by
    rw [hw]
    exact hl d f hk
  cases h with
  | stop | resume | begin | giveUp | attempt | launch | rerun | discard | lose | conclude | skip | tell
  | wake | sleep => exact same (watch?_eq (c := c) (by rw [hp]; rfl)).symm hk
  | stall => exact same rfl hk
  | leave | finish =>
    rw [finish_snd] at hk
    exact absurd hk (hl.not_released (by rw [hp]; rfl))
  | refuse =>
    rw [drop_snd] at hk
    exact absurd hk (hl.not_released (by rw [hp]; rfl))
  | @step _ m ho =>
    refine same (watch?_eq (c := c) (by rw [hp]; rfl)).symm ?_
    rcases (Machine.logged (m := m) (f := c.fiber) (s := s) (ω := ω)).store with e | ⟨v, e⟩
    · rwa [e] at hk
    · rwa [e, Store.waiting_alloc v hs] at hk
  | publish _ _ _ _ hpub =>
    exact same (watch?_eq (c := c) (by rw [hp]; rfl)).symm (Store.getElem?_waiting_publish hpub hk)
  | @park w m ho hv =>
    rcases Store.getElem?_waiting_follow hk with ⟨-, rfl, hd⟩ | ⟨hk, hn⟩
    · exact ⟨_, rfl, hd⟩
    · obtain ⟨k, hw, hd⟩ := hl d f hk
      rw [watch?_eq (by rw [hp]; rfl), Option.map_eq_some_iff] at hw
      obtain ⟨k', hsus, heq⟩ := hw
      cases heq
      refine ⟨m.journal, rfl, ?_⟩
      -- A cell that the new journal does not await it does not know, and so the commit has left it.
      refine Classical.byContradiction fun hna => hn ⟨_, hsus, ?_⟩ rfl
      refine (Journal.mem_untracked _ d _).2 ⟨hd, fun hmem => ?_⟩
      obtain ⟨y, hy, -⟩ := (Journal.mem_awaited _ d).1 hd
      have hx := Std.ExtTreeMap.getElem?_eq_some_getElem hmem
      cases hcr : (m.journal.entries[d]).created with
      | false => exact hna ((Journal.mem_awaited _ d).2 ⟨_, hx, hcr⟩)
      | true =>
        have := ht.fresh m _ d (by rw [hp]; rfl) hsus ⟨_, hx, hcr⟩
        rw [hy] at this
        cases this
  | @rest _ j hv =>
    have hj : c.watching = some j := by simp only [Commit.watching, hp]
    exact same (by rw [watch?, watch?, hj]; rfl) hk
  | @stir _ j seen hv =>
    have hj : c.watching = some j := by simp only [Commit.watching, hp]
    exact same (by rw [watch?, watch?, hj]; rfl) hk

end Commit

namespace Engine

variable {h : History β Ω} {e : Engine β Ω} {m : Move β Ω} {id : CommitId} {c c' : Commit β Ω}

theorem listed_act (he : e.Tracked) (ht : e.Tidy) (hm : e.admits m) (hn : ∀ f, m ≠ .setFiber id f)
    (hc : e.commits[id]? = some c) (hl : c.Listed id e.store)
    (hc' : (e.act m).commits[id]? = some c') : c'.Listed id (e.act m).store := by
  obtain ⟨b, d, hmv, hd, h⟩ := moved hm hc (he.ne_nextCommit hc)
  cases hc'.symm.trans h
  have hb : b.Listed id (e.act m).store := by
    by_cases hadv : m = .advance id
    · subst hadv
      cases hmv with
      | keep hne => exact absurd rfl hne
      | turn hp htr => exact htr.listed hl (ht hc) hp he.sound
    · by_cases hdrop : m = .drop id
      · subst hdrop
        obtain ⟨-, hi⟩ := held_of_isFree hm hc
        intro d f hk
        have hst : (e.act (.drop id)).store = (c.release e.store).2 := by
          simp only [act, Engine.drop, hc]
          rfl
        rw [hst] at hk
        exact absurd hk (hl.not_released (by rw [hi]; rfl))
      · intro d f hk
        have hk' := (waiting_act he hm hk).resolve_right hadv
        rw [hmv.watch?_eq hadv hdrop hn]
        exact hl d f hk'
  obtain ⟨g, rfl, -⟩ := hd.frame
  exact hb

theorem listed_new (r : Run h e) : c.Listed e.nextCommit e.store := by
  intro d f hk
  obtain ⟨b, hb⟩ := r.mem_of_waiting hk
  exact absurd rfl (r.tracked.ne_nextCommit hb)

end Engine

end TransactionalMemory
