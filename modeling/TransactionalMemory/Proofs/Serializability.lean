import TransactionalMemory.Proofs.Alone
import TransactionalMemory.Ref
import TransactionalMemory.Scenario.Val

/-! Published attempts are serializable. What an attempt returns and publishes is what its tree returns
and publishes when it has the store of that moment to itself, and no other attempt changes anything. -/

namespace TransactionalMemory

variable {β : Type} [Universe β] {Ω : Type}

namespace Journal

def landed (j : Journal β) (s : Store β) (c : CellId) : Any β :=
  ((j.entries[c]?).bind (·.pending)).getD (s.value c)

variable {j k : Journal β} {s t : Store β} {w : Waiting}

theorem value_publish (h : j.publish s = .ok (w, t, k)) (c : CellId) : t.value c = j.landed s c := by
  rcases cell_publish h c with ⟨x, v, hx, hv, e⟩ | ⟨hc, e⟩
  · simp [Store.value, Store.version, landed, e, hx, hv]
  · have hn : (j.entries[c]?).bind (·.pending) = none := by
      cases hx : j.entries[c]? with
      | none => rfl
      | some x => exact hc x hx
    simp only [Store.value, Store.version, landed, e, hn, Option.getD_none]

theorem landed_of_unchanged (h : j.isChanged = false) (c : CellId) : j.landed s c = s.value c := by
  have hn : (j.entries[c]?).bind (·.pending) = none := by
    cases hx : j.entries[c]? with
    | none => rfl
    | some x =>
      cases hv : x.pending with
      | none => exact hv
      | some v =>
        have hw : j.isChanged = true := (isChanged_iff j).2 ⟨c, x, hx, by simp [Entry.isChanged, hv]⟩
        rw [h] at hw
        cases hw
  rw [landed, hn, Option.getD_none]

theorem Known.current_of_isValid (h : j.Known s) (hv : j.isValid s) : j.Current s := by
  intro c x hx
  exact (h c x hx).isValid_iff.1 ((isValid_iff j s).1 hv c x hx)

theorem Like.landed_eq (h : j.Like k) (hj : j.Current s) (hk : k.Current t)
    (hst : ∀ c, k.entries[c]? = none → s.value c = t.value c) (c : CellId) :
    j.landed s c = k.landed t c := by
  have hc := h c
  cases hx : j.entries[c]? <;> cases hy : k.entries[c]? <;>
    simp only [hx, hy, Option.map_none, Option.map_some, reduceCtorEq, Option.some.injEq] at hc
  · simp only [landed, hx, hy, Option.bind_none, Option.getD_none]
    exact hst c hy
  · rename_i x y
    obtain ⟨he, hp, -⟩ := Entry.seen_inj.1 hc
    have hs : s.value c = t.value c := by
      rw [Store.value, Store.value, ← hj c x hx, ← hk c y hy]
      exact he
    simp only [landed, hx, hy, Option.bind_some, hp, hs]

end Journal

def Phase.result? : Phase β Ω → Option (Result β)
  | .busy _ (.published r _) | .busy _ (.waking r _) | .busy _ (.finishing r) => some r
  | .answered (.ready r) => some r
  | _ => none

namespace Commit

/-- An attempt that is under way has come no other way than a run alone could have. -/
def Solo (c : Commit β Ω) : Prop :=
  c.tree.Pure → ∀ call m, c.phase = .busy call (.running m) →
    m.Pure ∧ m.Replays c.tree c.fiber

variable {id : CommitId} {c c' : Commit β Ω} {s s' : Store β} {ω : Ω} {call : Call} {p : Point β Ω}
  {woken : List CommitId}

theorem Solo.of_not_running (h : c.phase.attempt? = none) : c.Solo := by
  intro _ call m hp
  rw [hp] at h
  cases h

theorem Transition.solo (h : c.Transition id s ω call p c' s' woken) (hc : c.Solo)
    (hp : c.phase = .busy call p) (hs : s.Sound) (hk : c.Known s) : c'.Solo := by
  cases h with
  | stall => exact hc
  | launch =>
    intro ht _ _ hp'
    cases hp'
    exact ⟨Machine.pure_start ht, Machine.replays_start⟩
  | @step _ m ho =>
    intro ht _ _ hp'
    cases hp'
    obtain ⟨hm, hr⟩ := hc ht _ _ hp
    exact ⟨hm.step, hr.step hm hs (hk.2 m.journal (by rw [hp]; rfl)) ho⟩
  | leave | finish =>
    apply Solo.of_not_running
    rw [finish_fst]
    rfl
  | refuse =>
    apply Solo.of_not_running
    rw [drop_fst]
    rfl
  | stop | resume | sleep | begin | giveUp | attempt | park | rerun | discard | lose | conclude
  | publish | skip | tell | wake | rest | stir => exact Solo.of_not_running rfl

theorem Transition.result {r : Result β} (h : c.Transition id s ω call p c' s' woken)
    (hp : c.phase = .busy call p) (hr : c.phase.result? = some r) : c'.phase.result? = some r := by
  rw [hp] at hr
  cases h with
  | skip | tell | wake => exact hr
  | finish =>
    rw [finish_fst]
    exact hr
  | stop | stall | resume | sleep | begin | leave | giveUp | attempt | launch | step | refuse | park
  | rerun | discard | lose | conclude | publish | rest | stir => cases hr

theorem Transition.published {m : Machine β Ω} {r : Result β} {w : List CommitId}
    (h : c.Transition id s ω call (.running m) c' s' woken)
    (hr : c'.phase = .busy call (.published r w)) :
    ∃ o, m.outcome? = some o ∧ (o.conform c.errorTy c.valueTy).result? = some r ∧
      m.journal.isValid s ∧ ∀ x, s'.value x = m.journal.landed s x := by
  cases h with
  | conclude ho hres hv hw hs =>
    cases hr
    exact ⟨_, ho, hres, hv, fun x => (Journal.landed_of_unchanged hw x).symm⟩
  | publish ho hres hw hs hpub =>
    cases hr
    exact ⟨_, ho, hres, (Journal.publish_eq_ok hpub).1, Journal.value_publish hpub⟩
  | refuse =>
    rw [drop_fst] at hr
    cases hr
  | step | park | rerun | discard | lose => cases hr

end Commit

namespace Engine.Moved

variable {e : Engine β Ω} {m : Move β Ω} {id : CommitId} {c c' : Commit β Ω} {r : Result β}

theorem turn_of_published {call : Call} {x : Machine β Ω} {w : List CommitId}
    (h : Moved e id m c c') (hx : c.phase = .busy call (.running x))
    (hr : c'.phase = .busy call (.published r w)) : m = .advance id ∧
      ∃ woken, c.Transition id e.store e.world call (.running x) c' (e.act (.advance id)).store
        woken := by
  cases h with
  | keep | setScheduler | setWatched | interrupt => cases hx.symm.trans hr
  | poll | refuse | runSync | settle => cases hr
  | setFiber _ hi | drop _ hi => cases hx.symm.trans hi
  | turn hp ht =>
    cases hx.symm.trans hp
    exact ⟨rfl, _, ht⟩

theorem result (h : Moved e id m c c') (hr : c.phase.result? = some r) :
    m = .settle id ∨ c'.phase.result? = some r := by
  cases h with
  | keep | setScheduler | setWatched | interrupt => exact .inr hr
  | settle => exact .inl rfl
  | setFiber _ hi | poll _ hi | refuse _ hi | runSync _ hi | drop _ hi =>
    rw [hi] at hr
    cases hr
  | turn hp ht => exact .inr (ht.result hp hr)

end Engine.Moved

theorem Run.solo {h : History β Ω} {e : Engine β Ω} (r : Run h e) {id : CommitId} {c : Commit β Ω}
    (hc : e.commits[id]? = some c) : c.Solo := by
  refine r.each (P := fun _ _ _ c => c.Solo) ?_ ?_ ?_ hc
  · intros
    exact .of_not_running rfl
  · intro h e m i c c' r _ hc hs hm
    have he := r.tracked
    cases hm with
    | keep | setScheduler | setWatched | interrupt => exact hs
    | setFiber _ hi => exact .of_not_running (by rw [hi]; rfl)
    | poll | refuse | runSync | settle => exact .of_not_running rfl
    | drop _ hi =>
      rw [Commit.drop_fst]
      exact .of_not_running (by rw [hi]; rfl)
    | turn hp ht => exact ht.solo hs hp he.sound (he.known i c hc)
  · intro _ _ _ _ _ _ hs
    exact hs

section

variable {h : History β Ω} {e : Engine β Ω} {id : CommitId} {c : Commit β Ω}

/-- An attempt that publishes has the exit, and leaves the values, of a run alone that gives the cells
it makes the same numbers. -/
theorem Run.alone_of_published (r : Run h e) (hc : e.commits[id]? = some c) (hp : c.tree.Pure)
    {c' : Commit β Ω} {s' : Store β} {call : Call} {m : Machine β Ω} {res : Result β}
    {w woken : List CommitId} (hm : c.phase = .busy call (.running m))
    (ht : c.Transition id e.store e.world call (.running m) c' s' woken)
    (hr : c'.phase = .busy call (.published res w)) (ω : Ω) :
    ∃ n s ω' o, Machine.Alone c.fiber (.start c.tree .unit) (e.store.without m.journal) ω n s ω' ∧
      (∀ d, n.journal.Creates d ↔ m.journal.Creates d) ∧
      n.outcome? = some o ∧ (o.conform c.errorTy c.valueTy).result? = some res ∧
      ∃ w t k, n.journal.publish s = .ok (w, t, k) ∧ ∀ x, t.value x = s'.value x := by
  obtain ⟨o, ho, hres, hv, hval⟩ := ht.published hr
  have hk : m.journal.Known e.store := (r.tracked.known id c hc).2 m.journal (by rw [hm]; rfl)
  have hcur := hk.current_of_isValid hv
  obtain ⟨-, hrep⟩ := r.solo hc hp _ _ hm
  obtain ⟨n, s, ω', ha, hl, hn, hf⟩ := hrep _ ω (Journal.met_without hcur)
  have hmade (d : CellId) : n.journal.Creates d ↔ m.journal.Creates d :=
    ⟨hl.journal.creates, hl.journal.symm.creates⟩
  refine ⟨n, s, ω', o, ha, hmade, hl.outcome?_eq.trans ho, hres, ?_⟩
  have hpub : n.journal.publish s = .ok (Journal.waitingFor s (n.journal.written s),
      { s.overlay (n.journal.written s) with now := s.now + 1 }, n.journal.settled) := by
    simp [Journal.publish, hn.isValid]
  refine ⟨_, _, _, hpub, fun x => ?_⟩
  rw [Journal.value_publish hpub, hval]
  apply hl.journal.landed_eq hn hcur
  intro d hd
  have hd' : ¬ m.journal.Creates d := by
    rintro ⟨y, hy, -⟩
    rw [hd] at hy
    cases hy
  simp only [Store.value, Store.version, Store.cell, hf d hd', Store.getElem?_without hd']

/-- Every attempt is as if it was alone. If it publishes, its exit is that of a run of the same tree
alone on the store it finds at that moment, with the same numbers for the cells it makes, and so are
the values it leaves; and whatever happens then, the commit keeps that exit until its answer is taken.
If it does not publish, no turn of it changes the version of a cell. -/
theorem Run.serializable (r : Run h e) {m : Move β Ω} (hm : e.admits m)
    (hc : e.commits[id]? = some c) : ∃ c', (e.act m).commits[id]? = some c' ∧
    (∀ call x res w, c.tree.Pure → c.phase = .busy call (.running x) →
      c'.phase = .busy call (.published res w) → ∀ ω, ∃ n s ω' o,
        Machine.Alone c.fiber (.start c.tree .unit) (e.store.without x.journal) ω n s ω' ∧
        (∀ d, n.journal.Creates d ↔ x.journal.Creates d) ∧
        n.outcome? = some o ∧ (o.conform c.errorTy c.valueTy).result? = some res ∧
        ∃ w t k, n.journal.publish s = .ok (w, t, k) ∧
          ∀ d, t.value d = (e.act m).store.value d) ∧
    (∀ res, c.phase.result? = some res → m = .settle id ∨ c'.phase.result? = some res) ∧
    (m = .advance id → (∀ call res w, c'.phase ≠ .busy call (.published res w)) →
      ∀ d ∈ e.store.cells, (e.act m).store.version d = e.store.version d) := by
  obtain ⟨b, c', hmv, hb, hc'⟩ := Engine.moved hm hc (r.tracked.ne_nextCommit hc)
  have hphase : c'.phase = b.phase := by
    obtain ⟨g, rfl, -⟩ := hb.frame
    rfl
  refine ⟨c', hc', ?_, ?_, ?_⟩
  · intro call x res w hpure hx hr ω
    rw [hphase] at hr
    obtain ⟨rfl, woken, ht⟩ := hmv.turn_of_published hx hr
    exact r.alone_of_published hc hpure hx ht hr ω
  · intro res hres
    rw [hphase]
    exact hmv.result hres
  · rintro rfl hn d hd
    cases hmv with
    | keep hne => exact absurd rfl hne
    | turn hp ht =>
      rcases ht.version_eq (r.tracked.known id c hc) hp r.tracked.sound with h | ⟨-, -, res, w, h⟩
      · exact h d hd
      · exact absurd (hphase.trans h) (hn _ res w)

end

def increment : Tree Scenario.Base Unit :=
  ((⟨⟨1⟩⟩ : Ref (.nat : Ty Scenario.Base)).updateAndGet (R := .unit) (E := .never)
    fun (n : Nat) => pure (n + 1)).tree

/-- One commit has read the cell when another one, from its first turn to its answer, changes it. The
first one has to run again, and then stands before its publication. -/
def interference : List (Move Scenario.Base Unit) :=
  let turns n i := List.replicate n (Move.advance ⟨i⟩)
  [.alloc ⟨.nat, (3 : Nat)⟩, .commit increment .never .nat none,
    .commit increment .never .nat none, .poll ⟨1⟩ .thread] ++ turns 4 1 ++
  [.runSync ⟨2⟩] ++ turns 6 2 ++ [.settle ⟨2⟩] ++ turns 4 1

theorem serializable_interference :
    let e := (Engine.play { world := () } [] interference).2
    ∃ c m n s ω' o w t k, e.commits[(⟨1⟩ : CommitId)]? = some c ∧
      c.phase = .busy (.poll .thread) (.running m) ∧ (e.store.value ⟨1⟩).same ⟨.nat, (4 : Nat)⟩ ∧
      Machine.Alone c.fiber (.start increment .unit) (e.store.without m.journal) () n s ω' ∧
      n.outcome? = some o ∧ (o.conform .never .nat).result? = some (.ok ⟨.nat, (5 : Nat)⟩) ∧
      n.journal.publish s = .ok (w, t, k) ∧ t.value ⟨1⟩ = ⟨.nat, (5 : Nat)⟩ := by
  intro e
  let m : Machine Scenario.Base Unit :=
    { focus := .exit (.success ⟨.nat, (5 : Nat)⟩), env := .unit
      journal := ⟨(∅ : Std.ExtTreeMap CellId (Entry Scenario.Base)).insert ⟨1⟩
        { expected := ⟨⟨1⟩, 2, ⟨.nat, (4 : Nat)⟩⟩, pending := some ⟨.nat, (5 : Nat)⟩ }⟩ }
  let c : Commit Scenario.Base Unit :=
    { tree := increment, errorTy := .never, valueTy := .nat, fiber := ⟨1⟩
      phase := .busy (.poll .thread) (.running m) }
  have hc : e.commits[(⟨1⟩ : CommitId)]? = some c := by with_unfolding_all rfl
  have r : Run _ e := (Run.start ()).play (by decide +kernel)
  have ha : e.admits (.advance ⟨1⟩) := by decide +kernel
  obtain ⟨c', hc', hpub, -⟩ := r.serializable ha hc
  have hw : (e.act (.advance ⟨1⟩)).commits[(⟨1⟩ : CommitId)]? = some (c.won.goto (.poll .thread)
      (.published (.ok ⟨.nat, (5 : Nat)⟩) [])) := by with_unfolding_all rfl
  cases hc'.symm.trans hw
  obtain ⟨n, s, ω', o, ha, -, ho, hr, w, t, k, ht, hval⟩ :=
    hpub _ m _ _ (fun _ _ _ => rfl) rfl rfl ()
  refine ⟨c, m, n, s, ω', o, w, t, k, hc, rfl, by decide +kernel, ha, ho, hr, ht, ?_⟩
  rw [hval]
  with_unfolding_all rfl

end TransactionalMemory
