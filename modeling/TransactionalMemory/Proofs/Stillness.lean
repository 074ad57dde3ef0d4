import TransactionalMemory.Proofs.Conflict
import TransactionalMemory.Proofs.Registration
import TransactionalMemory.Proofs.Ringing

/-! Nothing is done in vain. A commit that waits, has heard nothing and is owed nothing is not run again,
answers every poll that it has to wait and wakes nobody, as long as no cell that it waits for gets a new
version. -/

namespace TransactionalMemory

variable {β : Type} [Universe β] {Ω : Type}

def Move.cutsShort (id : CommitId) : Move β Ω → Bool
  | .interrupt k _ | .drop k | .runSync k => k = id
  | _ => false

namespace Commit

variable {id : CommitId} {c c' d : Commit β Ω} {s s' : Store β} {ω : Ω} {call : Call} {p : Point β Ω}
  {woken : List CommitId} {j : Journal β}

/-- The commit waits for the cells of the journal, or is just being polled, and has heard nothing. -/
structure Dormant (c : Commit β Ω) (j : Journal β) : Prop where
  live : c.isLive
  suspended : c.suspended = some j
  settled : c.rerun = false
  running : c.signals.state = .running
  silent : c.signals.notified = false
  phase : c.phase = .idle ∨ c.phase = .answered .pending ∨ ∃ w, c.phase = .busy (.poll w) .top

theorem Dormant.held (h : c.Dormant j) : c.held := by
  have hl := h.live
  simp only [isLive, Bool.and_eq_true] at hl
  exact hl.1

theorem Dormant.watching (h : c.Dormant j) : c.watching = some j := by
  rw [← h.suspended]
  apply watching_eq
  rcases h.phase with hp | hp | ⟨w, hp⟩ <;> rw [hp] <;> rfl

theorem Dormant.top (h : c.Dormant j) (hp : c.phase = .busy call p) : p = .top ∧ ∃ w, call = .poll w := by
  rcases h.phase with hi | ha | ⟨w, hw⟩
  · cases hp.symm.trans hi
  · cases hp.symm.trans ha
  · cases hp.symm.trans hw
    exact ⟨rfl, w, rfl⟩

theorem Transition.dormant (h : c.Transition id s ω call p c' s' woken) (hp : c.phase = .busy call p)
    (hd : c.Dormant j) : c'.Dormant j ∧ c'.phase = .answered .pending := by
  obtain ⟨rfl, w, rfl⟩ := hd.top hp
  cases h with
  | sleep => exact ⟨⟨hd.live, hd.suspended, hd.settled, hd.running, hd.silent, .inr (.inl rfl)⟩, rfl⟩
  | stop hi => cases hi.symm.trans hd.running
  | stall hi => cases hi.symm.trans hd.running
  | resume _ _ _ hn => cases hn.symm.trans hd.silent
  | begin _ hb =>
    rcases hb with hb | hb | hb
    · cases hb
    · cases hb.symm.trans hd.suspended
    · cases hb.symm.trans hd.settled

theorem Dormant.eq_of_hears (h : c.Dormant j) (hears : c.Hears d) (hn : d.signals.notified = false) :
    d = c := by
  cases hears with
  | calm => rfl
  | heard =>
    have ha : c.isAlive := by simp only [isAlive, h.held, Bool.true_or]
    simp [heard, ha, Signals.notify, h.running] at hn

end Commit

namespace Engine

variable {e : Engine β Ω} {m : Move β Ω} {id : CommitId} {c c' : Commit β Ω} {j : Journal β}

theorem Moved.dormant (h : Moved e id m c c') (hd : c.Dormant j) (hm : m.cutsShort id = false) :
    c'.Dormant j ∧ (m = .advance id → c'.phase = .answered .pending) := by
  cases h with
  | keep hne => exact ⟨hd, (absurd · hne)⟩
  | setFiber | setScheduler | setWatched =>
    exact ⟨⟨hd.live, hd.suspended, hd.settled, hd.running, hd.silent, hd.phase⟩, by rintro ⟨⟩⟩
  | @poll _ w =>
    exact ⟨⟨hd.live, hd.suspended, hd.settled, hd.running, hd.silent, .inr (.inr ⟨w, rfl⟩)⟩, by rintro ⟨⟩⟩
  | refuse _ _ hc =>
    have hl := hd.live
    simp [Commit.isLive, hc] at hl
  | settle => exact ⟨⟨hd.live, hd.suspended, hd.settled, hd.running, hd.silent, .inl rfl⟩, by rintro ⟨⟩⟩
  | runSync | interrupt | drop => simp [Move.cutsShort] at hm
  | turn hp ht =>
    obtain ⟨hd', hp'⟩ := ht.dormant hp hd
    exact ⟨hd', fun _ => hp'⟩

/-- The commit waits for the cells of the journal, has heard nothing and is owed nothing. -/
def Dormant (e : Engine β Ω) (id : CommitId) (j : Journal β) : Prop :=
  ∃ c, e.commits[id]? = some c ∧ c.Dormant j ∧ ¬ e.Owes id

end Engine

section

variable {h : History β Ω} {e : Engine β Ω} {m : Move β Ω} {id : CommitId} {c : Commit β Ω}
  {j : Journal β}

theorem Run.rerun_eq_false (r : Run h e) (hc : e.commits[id]? = some c) (hb : c.phase.isBusy = false)
    (hs : c.suspended.isSome) : c.rerun = false := by
  refine r.each (P := fun _ _ _ c => c.phase.isBusy = false → c.suspended.isSome → c.rerun = false)
    ?_ ?_ (fun _ ih => ih) hc hb hs
  · intro _ _ _ _ _ _ _ _ _ _
    rfl
  · intro h e m i c c' _ _ _ ih hmv hb hs
    cases hmv with
    | keep | setFiber | setScheduler | setWatched | interrupt => exact ih hb hs
    | poll | runSync => cases hb
    | refuse _ hi => exact ih (by rw [hi]; rfl) hs
    | settle ha => exact ih (by rw [ha]; rfl) hs
    | drop =>
      rw [Commit.drop_fst] at hs
      cases hs
    | turn hp ht =>
      generalize (e.act (.advance i)).store = s at ht
      cases ht with
      | sleep _ _ hn => exact hn
      | rest => rfl
      | leave | finish =>
        rw [Commit.finish_fst] at hs
        cases hs
      | refuse =>
        rw [Commit.drop_fst] at hs
        cases hs
      | stall =>
        have hb : c.phase.isBusy = false := hb
        rw [hp] at hb
        cases hb
      | stop | resume | begin | giveUp | attempt | launch | step | park | rerun | discard | lose
      | conclude | publish | skip | tell | wake | stir => cases hb

theorem Run.version_of_dormant (r : Run h e) (hm : e.admits m) (hc : e.commits[id]? = some c)
    (hd : c.Dormant j) {d : CellId} (hcell : d ∈ e.store.cells)
    (hv : Engine.overwrites id d (e, m) = false) :
    (e.act m).store.version d = e.store.version d := by
  by_cases hne : m = .advance id
  · subst hne
    obtain ⟨c', hmv, -⟩ := Engine.moved_left hm hc (r.tracked.ne_nextCommit hc)
    cases hmv with
    | keep hne => exact absurd rfl hne
    | turn hp ht =>
      rcases ht.version_eq (r.tracked.known id c hc) hp r.tracked.sound with h | ⟨-, -, _, _, hp'⟩
      · exact h d hcell
      · cases hp'.symm.trans (ht.dormant hp hd).2
  · rw [Engine.overwrites_of_ne r hm hne hcell, Bool.not_eq_false', Version.same_iff] at hv
    rcases ((Engine.reshaped hm).later r.tracked).version d hcell with h | h
    · exact h
    · omega

theorem Run.dormant_act (r : Run h e) (ho : h.Orderly e) (hm : e.admits m) (hd : e.Dormant id j)
    (hcut : m.cutsShort id = false) (hv : ∀ (d : CellId) (x : Entry β), j.entries[d]? = some x →
      x.created = false → Engine.overwrites id d (e, m) = false) :
    (e.act m).Dormant id j ∧ (m = .advance id → (e.act m).answer? id = some .pending) := by
  obtain ⟨c, hc, hd, hn⟩ := hd
  have hi := r.tracked.ne_nextCommit hc
  obtain ⟨c', b, hmv, hears, hb⟩ := Engine.moved hm hc hi
  obtain ⟨hd', hp⟩ := hmv.dormant hd hcut
  have hsilent : b.signals.notified = false :=
    Bool.eq_false_iff.2 fun h => hn (Engine.owes_of_notified hm hc hi hb hd.silent h)
  obtain rfl := hd'.eq_of_hears hears hsilent
  refine ⟨⟨b, hb, hd', fun howes => ?_⟩, fun h => ?_⟩
  · rcases Engine.Owes.of_act r.tracked hm howes with h | ⟨d, hcell, hne, f, hlist⟩
    · exact hn h
    · -- Whoever is on a list waits for the cell, so the cell is one of the journal's.
      obtain ⟨k, x, hw, hx, hcr⟩ := (r.exact ho).watches hlist
      rw [Engine.watches_eq .calm hc, Commit.watch?, hd.watching] at hw
      cases hw
      exact hne (r.version_of_dormant hm hc hd hcell (hv d x hx hcr))
  · rw [Engine.answer?_eq hb, hp h]
    rfl

theorem History.Orderly.of_play {ms : List (Move β Ω)}
    (ho : Orderly (e.play h ms).1 (e.play h ms).2) : h.Orderly e := by
  induction ms generalizing h e with
  | nil => exact ho
  | cons m ms ih => exact (ih ho).2.2

/-- As long as nobody interrupts a dormant commit, uses up its handle or publishes a cell that it waits
for, it stays dormant, and answers in every turn that it has to wait. -/
theorem Run.dormant_play (r : Run h e) (hd : e.Dormant id j) {ms : List (Move β Ω)}
    (ok : e.allows ms) (ho : History.Orderly (e.play h ms).1 (e.play h ms).2)
    (hcut : ∀ m ∈ ms, m.cutsShort id = false)
    (hv : ∀ y ∈ (e.play [] ms).1, ∀ (d : CellId) (x : Entry β), j.entries[d]? = some x →
      x.created = false → Engine.overwrites id d y = false) :
    (∀ y ∈ (e.play [] ms).1, y.1.Dormant id j ∧ y.1.admits y.2 ∧ y.2.cutsShort id = false ∧
      (y.2 = .advance id → (y.1.act y.2).answer? id = some .pending)) ∧
    (e.play [] ms).2.Dormant id j := by
  induction ms generalizing h e with
  | nil => exact ⟨nofun, hd⟩
  | cons m ms ih =>
    simp only [Engine.allows, Bool.and_eq_true] at ok
    obtain ⟨hm, hms⟩ := List.forall_mem_cons.1 hcut
    have hplay : e.play [] (m :: ms) =
        (((e.act m).play [] ms).1 ++ [(e, m)], ((e.act m).play [] ms).2) := by
      rw [Engine.play, Engine.play_eq]
    rw [hplay] at hv ⊢
    obtain ⟨hv, hv₀⟩ := List.forall_mem_append.1 hv
    obtain ⟨hd', ha⟩ := r.dormant_act (History.Orderly.of_play ho) ok.1 hd hm
      (hv₀ _ List.mem_cons_self)
    obtain ⟨hall, hend⟩ := ih (r.next ok.1) hd' ok.2 ho hms hv
    refine ⟨List.forall_mem_append.2 ⟨hall, ?_⟩, hend⟩
    rintro y hy
    obtain rfl := List.mem_singleton.1 hy
    exact ⟨hd, ok.1, hm, ha⟩

theorem Run.dormant (r : Run h e) (hc : e.commits[id]? = some c) (hb : c.phase.isBusy = false)
    (ha : h.lastAnswer e id = some .pending) (hh : c.held) (hrun : c.signals.state = .running)
    (hn : c.signals.notified = false) (howes : ¬ e.Owes id) (hj : h.lastRetry id = some j) :
    e.Dormant id j := by
  have hs := (r.suspended_iff hc hb).2 ⟨hh, ha⟩
  obtain ⟨k, hk⟩ := Option.isSome_iff_exists.1 hs
  have hw : c.watching = some k := by rw [Commit.watching_eq (Phase.isParking_of_not_busy hb), hk]
  have hjk := r.lastRetry_of_watching hc (Phase.isAtRest_of_not_busy hb) hw
  rw [hj] at hjk
  cases hjk
  refine ⟨c, hc, ⟨(r.tidy hc).live (by rw [hw]; rfl), hk, r.rerun_eq_false hc hb hs, hrun, hn, ?_⟩, howes⟩
  cases hp : c.phase with
  | idle => exact .inl rfl
  | busy => simp [hp, Phase.isBusy] at hb
  | answered a =>
    rw [((r.tidy hc).answer a hp).1 hs]
    exact .inr (.inl rfl)

theorem Engine.launches_of_dormant (hd : e.Dormant id j) : Engine.launches id (e, m) = false := by
  obtain ⟨b, hb, hdb, -⟩ := hd
  by_cases hne : m = .advance id
  · subst hne
    rw [Engine.launches_advance hb]
    rcases hdb.phase with hp | hp | ⟨w, hp⟩ <;> rw [hp] <;> rfl
  · exact Engine.launches_of_ne hne

theorem Engine.rings_of_dormant (hd : e.Dormant id j) (hm : e.admits m) (hcut : m.cutsShort id = false)
    {w : Waker} (hring : Engine.Rings w (e, m)) :
    m = .wake w ∨ ∃ k b, k ≠ id ∧ e.commits[k]? = some b ∧ b.signals.waker = some w := by
  obtain ⟨-, -, -, howes⟩ := hd
  rcases Engine.rings_cases hm hring with hwake | ⟨k, b, hk, hslot, hwhy⟩
  · exact .inl hwake
  · refine .inr ⟨k, b, ?_, hk, hslot⟩
    rintro rfl
    rcases hwhy with ⟨f, rfl⟩ | howed
    · simp [Move.cutsShort] at hcut
    · exact howes howed

/-- A commit that is there and running, has last answered that it has to wait, has heard nothing since
and is owed nothing is not run again, as long as it is not cut short and nobody publishes a cell that
the last attempt of it has seen and has not made. Every turn of it answers that it has to wait, and
whoever is woken is woken from outside or from the slot of another commit. -/
theorem Run.undisturbed (r : Run h e) (hc : e.commits[id]? = some c) (hb : c.phase.isBusy = false)
    (ha : h.lastAnswer e id = some .pending) (hh : c.held) (hrun : c.signals.state = .running)
    (hn : c.signals.notified = false) (howes : ¬ e.Owes id) (hj : h.lastRetry id = some j)
    {ms : List (Move β Ω)} (ok : e.allows ms)
    (ho : History.Orderly (e.play h ms).1 (e.play h ms).2)
    (hcut : ∀ m ∈ ms, m.cutsShort id = false)
    (hv : ∀ y ∈ (e.play [] ms).1, ∀ (d : CellId) (x : Entry β), j.entries[d]? = some x →
      x.created = false → Engine.overwrites id d y = false) :
    (∀ y ∈ (e.play [] ms).1, Engine.launches id y = false ∧
      (y.2 = .advance id → (y.1.act y.2).answer? id = some .pending) ∧
      ∀ w, Engine.Rings w y → y.2 = .wake w ∨
        ∃ k b, k ≠ id ∧ y.1.commits[k]? = some b ∧ b.signals.waker = some w) ∧
    ∀ a, (e.play [] ms).2.answer? id = some a → a = .pending := by
  obtain ⟨hall, c', hc', hd', -⟩ :=
    r.dormant_play (r.dormant hc hb ha hh hrun hn howes hj) ok ho hcut hv
  refine ⟨fun y hy => ?_, fun a hans => ?_⟩
  · obtain ⟨hd, hm, hshort, hans⟩ := hall y hy
    exact ⟨Engine.launches_of_dormant hd, hans, fun w => Engine.rings_of_dormant hd hm hshort⟩
  · rw [Engine.answer?_eq hc'] at hans
    rcases hd'.phase with hp | hp | ⟨w, hp⟩ <;> rw [hp] at hans <;> cases hans
    rfl

end

def asleep : List (Move Scenario.Base Unit) :=
  [.alloc ⟨.nat, (0 : Nat)⟩, .alloc ⟨.nat, (0 : Nat)⟩,
    .commit (.touch ⟨1⟩ fun _ _ => .ok (.leave .retry)) .never .unit none, .poll ⟨1⟩ (.task ⟨5⟩)] ++
  List.replicate 6 (.advance ⟨1⟩) ++ [.settle ⟨1⟩]

/-- One commit writes the second cell, and another one the first, which it then writes back. Between
them the commit that waits is polled with another waker. -/
def neighbours : List (Move Scenario.Base Unit) :=
  let cell i : Ref (.nat : Ty Scenario.Base) := ⟨⟨i⟩⟩
  let write i (n : Nat) : Tx Unit .unit .never .unit := (cell i).set n
  let turns n i := List.replicate n (Move.advance ⟨i⟩)
  [.commit (write 2 1).tree .never .unit none,
    .commit ((write 1 1).bind fun _ => pure (write 1 0)).tree .never .unit none, .runSync ⟨2⟩] ++
  turns 6 2 ++ [.poll ⟨1⟩ (.task ⟨6⟩), .advance ⟨1⟩, .settle ⟨1⟩, .runSync ⟨3⟩] ++ turns 9 3 ++
  [.poll ⟨1⟩ .thread, .advance ⟨1⟩]

theorem undisturbed_neighbours :
    let p := Engine.play { world := () } [] asleep
    let q := p.2.play [] neighbours
    (∀ y ∈ q.1, Engine.launches ⟨1⟩ y = false) ∧ q.2.answer? ⟨1⟩ = some .pending := by
  intro p q
  have r : Run p.1 p.2 := (Run.start ()).play (by decide +kernel)
  have ok : p.2.allows neighbours := by decide +kernel
  have ho : History.Orderly (p.2.play p.1 neighbours).1 (p.2.play p.1 neighbours).2 := by
    decide +kernel
  obtain ⟨c, hc⟩ : ∃ c, p.2.commits[(⟨1⟩ : CommitId)]? = some c :=
    Option.isSome_iff_exists.1 (by decide +kernel)
  have hp : (p.2.commits[(⟨1⟩ : CommitId)]?).map (fun c =>
      (c.phase.isBusy, c.held, c.signals.state, c.signals.notified)) =
      some (false, true, .running, false) := by decide +kernel
  simp only [hc, Option.map_some, Option.some.injEq, Prod.mk.injEq] at hp
  obtain ⟨hb, hh, hrun, hn⟩ := hp
  have ha : p.1.lastAnswer p.2 ⟨1⟩ = some .pending := by with_unfolding_all rfl
  have hj : (p.1.lastRetry ⟨1⟩).map (fun j => q.1.all fun y => j.entries.toList.all fun z =>
      !Engine.overwrites ⟨1⟩ z.1 y) = some true := by decide +kernel
  obtain ⟨j, hj, hover⟩ := Option.map_eq_some_iff.1 hj
  obtain ⟨hstill, hend⟩ := r.undisturbed hc hb ha hh hrun hn (by decide +kernel) hj ok ho
    (by decide +kernel) fun y hy d x hx _ => by
      have hz := List.all_eq_true.1 (List.all_eq_true.1 hover y hy) (d, x)
        (Std.ExtTreeMap.mem_toList_iff_getElem?_eq_some.2 hx)
      simpa using hz
  refine ⟨fun y hy => (hstill y hy).1, ?_⟩
  obtain ⟨a, hans⟩ : ∃ a, q.2.answer? ⟨1⟩ = some a := Option.isSome_iff_exists.1 (by decide +kernel)
  rw [hans, hend a hans]

end TransactionalMemory
