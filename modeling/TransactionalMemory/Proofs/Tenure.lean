import TransactionalMemory.Proofs.Site

namespace TransactionalMemory

variable {β : Type} [Universe β] {Ω : Type}

namespace Commit

structure Acquires (c : Commit β Ω) (sem : Semaphore) (n : Nat) (busy : Bool) : Prop where
  tree : c.tree = (Errand.acquire n).tree sem
  valueTy : c.valueTy = .unit
  kept : c.Kept
  polled : c.Polled
  still : busy = false → c.phase = .idle

structure Releases (c : Commit β Ω) (sem : Semaphore) (n : Nat) : Prop where
  tree : c.tree = (Errand.release n).tree sem
  valueTy : c.valueTy = .unit
  kept : c.Kept
  synced : c.Synced

end Commit

section

variable {h : History β Ω} {e : Engine β Ω} {m : Move β Ω} {id : CommitId} {c c' : Commit β Ω}
  {sem : Semaphore} {a : Errand} {v n : Nat} {call : Call} {p : Point β Ω} {s : Store β}
  {woken : List CommitId} {x : Machine β Ω} {g : Signals}

theorem Run.outcome_of_errand (r : Run h e) (hc : e.commits[id]? = some c)
    (ht : c.tree = a.tree sem) (hv : e.store.value sem.cell = ⟨.nat, v⟩)
    (hx : c.phase.attempt? = some x) {o : Outcome β} (ho : x.outcome? = some o)
    (hj : x.journal.isValid e.store) : o = a.outcome v := by
  have hev := r.evaluates hc hx ho
  rw [ht] at hev
  obtain ⟨y, hy, hspec⟩ := hev.of_errand
  have hcur := (r.tracked.known_attempt hc hx).current_of_isValid hj sem.cell y hy
  exact (hspec v ((congrArg Version.value hcur).trans hv)).1

theorem Run.kept_of_turn (r : Run h e) (hc : e.commits[id]? = some c) (ht : c.tree = a.tree sem)
    (hty : c.valueTy = .unit) (hv : e.store.value sem.cell = ⟨.nat, v⟩) (hp : c.phase = .busy call p)
    (hs : call = .sync → ∃ n, a = .release n)
    (htr : c.Transition id e.store e.world call p c' s woken)
    (hroom : c.signals.state ≠ .done → c'.signals.state = .done → a.overflows v = false)
    (hk : c.Kept) : c'.Kept := by
  refine htr.kept hk hp ?_ ?_
  · rintro x rfl hsync hj ho
    obtain ⟨n, rfl⟩ := hs hsync
    have := r.outcome_of_errand hc ht hv (by rw [hp]; rfl) ho hj
    exact Errand.outcome_release_ne_retry n this.symm
  · intro res w hrun hd hres
    obtain ⟨x, -, -, rfl, -⟩ := htr.published_of_done (by rw [hrun]; exact nofun) hd
    obtain ⟨o, ho, hconf, hj, -⟩ := htr.published hres
    obtain rfl := r.outcome_of_errand hc ht hv (by rw [hp]; rfl) ho hj
    have hn : (a.outcome v : Outcome β) ≠ .retry := by
      intro heq
      rw [heq] at hconf
      cases hconf
    have hroom := hroom (by rw [hrun]; exact nofun) hd
    rw [(Errand.outcome_eq_unit hn hroom).1] at hconf
    simp only [Exit.conform, hty] at hconf
    cases hconf
    exact ⟨_, rfl⟩

theorem Run.acquires_act (r : Run h e) {busy : Bool} (hm : e.admits m) (hh : m.handles id = false)
    (hn : m.meddles id = false) (hv : e.store.value sem.cell = ⟨.nat, v⟩)
    (hc : e.commits[id]? = some c) (ha : c.Acquires sem n busy)
    (hc' : (e.act m).commits[id]? = some c') : c'.Acquires sem n busy := by
  rcases Engine.aside r.tracked hm hh hc with
    ⟨g, b, h, hg⟩ | ⟨rfl, call, p, d, woken, g, hp, ht, h, hg⟩
  · cases hc'.symm.trans h
    exact ⟨ha.tree, ha.valueTy, ha.kept.aside (hg hn), ha.polled.aside, ha.still⟩
  · cases hc'.symm.trans h
    have hk : d.Kept := r.kept_of_turn hc ha.tree ha.valueTy hv hp (by
      rintro rfl
      obtain ⟨w, hw⟩ := ha.polled.called _ _ hp
      cases hw) ht (fun _ _ => rfl) ha.kept
    refine ⟨ht.frame.1.trans ha.tree, ht.frame.2.1.trans ha.valueTy, hk.aside hg,
      (ht.polled ha.polled hp).aside, fun hb => ?_⟩
    rw [ha.still hb] at hp
    cases hp

theorem Run.releases_act (r : Run h e) (hm : e.admits m) (hh : m.handles id = false)
    (hn : m.meddles id = false) (hv : e.store.value sem.cell = ⟨.nat, v⟩)
    (hroom : Engine.finishes id (e, m) → (Errand.release n).overflows v = false)
    (hc : e.commits[id]? = some c) (ha : c.Releases sem n)
    (hc' : (e.act m).commits[id]? = some c') : c'.Releases sem n := by
  rcases Engine.aside r.tracked hm hh hc with
    ⟨g, b, h, hg⟩ | ⟨rfl, call, p, d, woken, g, hp, ht, h, hg⟩
  · cases hc'.symm.trans h
    exact ⟨ha.tree, ha.valueTy, ha.kept.aside (hg hn), ha.synced.aside⟩
  · cases hc'.symm.trans h
    have hroom' (hs : c.signals.state ≠ .done) (hd : d.signals.state = .done) :
        (Errand.release n).overflows v = false := by
      apply hroom
      simp [Engine.finishes, Engine.state?, hc, h, hs, hg.trans hd]
    have hk : d.Kept := r.kept_of_turn hc ha.tree ha.valueTy hv hp (fun _ => ⟨n, rfl⟩) ht hroom' ha.kept
    obtain ⟨q, hq⟩ | ⟨hs, -⟩ := ha.synced
    · cases hp.symm.trans hq
      have hsync : d.Synced := by
        refine ht.synced (r.tidy hc) hp ?_
        rintro x rfl hj ho
        have := r.outcome_of_errand hc ha.tree hv (by rw [hp]; rfl) ho hj
        exact Errand.outcome_release_ne_retry n this.symm
      exact ⟨ht.frame.1.trans ha.tree, ht.frame.2.1.trans ha.valueTy, hk.aside hg, hsync.aside⟩
    · have hb := hs.still
      rw [hp] at hb
      cases hb

end

/-- The commit has not been published, never will be, and waits for nothing. -/
structure Engine.Missed (e : Engine β Ω) (id : CommitId) : Prop where
  spent : ∃ c, e.commits[id]? = some c ∧ c.Spent
  unpublished : e.isDone id = false
  unlisted : ∀ (d : CellId) (f : FiberId), (e.store.waiting d)[f]? ≠ some id

theorem Engine.Missed.act {e : Engine β Ω} {m : Move β Ω} {id : CommitId} (h : e.Missed id)
    (he : e.Tracked) (hm : e.admits m) : (e.act m).Missed id := by
  obtain ⟨⟨c, hc, hs⟩, hn, hl⟩ := h
  obtain ⟨_, c', -, -, hc'⟩ := moved hm hc (he.ne_nextCommit hc)
  obtain ⟨hs', hd⟩ := spent_act he hm hc hs hc'
  refine ⟨⟨c', hc', hs'⟩, ?_, fun d f hk => ?_⟩
  · simp only [isDone, state?, hc, hc', Option.map_some, Option.some.injEq,
      decide_eq_false_iff_not] at hn ⊢
    exact fun hd' => hn (hd hd')
  · rcases waiting_act he hm hk with hk | rfl
    · exact hl d f hk
    · obtain ⟨call, p, hp⟩ := busy_of_admits hm hc
      have hb := hs.still
      rw [hp] at hb
      cases hb

namespace Tenure

inductive Stands (sem : Semaphore) (e : Engine β Ω) (t : Tenure β) : Prop
  | fresh : t.hold.stage = .fresh → t.acquisition = none → t.restitution = none → Stands sem e t
  | acquiring {c : CommitId} {x : Commit β Ω} : t.hold.stage = .acquiring c →
    t.acquisition = some c → t.restitution = none → e.commits[c]? = some x →
    x.Acquires sem t.hold.permits t.busy → x.Listed c e.store → Stands sem e t
  | holding {b : CommitId} : t.hold.stage = .holding → t.acquisition = some b →
    t.restitution = none → e.isDone b → Stands sem e t
  | releasing {b c : CommitId} {a : HoldAnswer β} {x : Commit β Ω} : t.hold.stage = .releasing c a →
    t.acquisition = some b → t.restitution = some c → e.isDone b → t.busy →
    e.commits[c]? = some x → x.Releases sem t.hold.permits → Stands sem e t
  | returned {b c : CommitId} : t.hold.stage = .over → t.acquisition = some b →
    t.restitution = some c → e.isDone b → e.isDone c → Stands sem e t
  | missed : t.hold.stage = .over → t.restitution = none →
    (∀ b, t.acquisition = some b → e.Missed b) → Stands sem e t

def Expects (t : Tenure β) (x : Commit β Ω) : Prop :=
  match t.hold.stage with
  | .fresh | .acquiring _ => x.held ∧ x.phase = .idle
  | .holding => x.Polled ∧ (t.busy = false → x.phase = .idle)
  | .releasing _ _ | .over => x.Spent

def Works (e : Engine β Ω) (t : Tenure β) : Prop :=
  ∀ w ∈ t.hold.work.commits, ∃ x, e.commits[w]? = some x ∧ t.Expects x

def active (t : Tenure β) : List CommitId :=
  match t.hold.stage with
  | .acquiring c | .releasing c _ => [c]
  | _ => []

def engaged (t : Tenure β) : List CommitId :=
  match t.hold.stage with
  | .releasing _ _ | .over => []
  | _ => t.hold.work.commits

variable {h : History β Ω} {e : Engine β Ω} {m : Move β Ω} {sem : Semaphore} {t : Tenure β} {v : Nat}

theorem Stands.act (ht : t.Stands sem e) (r : Run h e) (hm : e.admits m)
    (hv : e.store.value sem.cell = ⟨.nat, v⟩)
    (hn : ∀ id ∈ t.active, m.handles id = false ∧ m.meddles id = false)
    (hroom : t.ledger.overflows sem (e, m) = false) : t.Stands sem (e.act m) := by
  have he := r.tracked
  have done {id : CommitId} (hd : e.isDone id) : (e.act m).isDone id := by
    rw [Engine.isDone_act he hm, hd, Bool.true_or]
  have after {id : CommitId} {x : Commit β Ω} (hx : e.commits[id]? = some x) :
      ∃ y, (e.act m).commits[id]? = some y := by
    obtain ⟨_, y, -, -, hy⟩ := Engine.moved hm hx (he.ne_nextCommit hx)
    exact ⟨y, hy⟩
  cases ht with
  | fresh hs ha hr => exact .fresh hs ha hr
  | @acquiring c x hs ha hr hx hacq hl =>
    obtain ⟨hh, hmed⟩ := hn c (by simp [active, hs])
    obtain ⟨y, hy⟩ := after hx
    refine .acquiring hs ha hr hy (r.acquires_act hm hh hmed hv hx hacq hy) ?_
    refine Engine.listed_act he r.tidy hm ?_ hx hl hy
    rintro f rfl
    simp [Move.handles] at hh
  | holding hs ha hr hd => exact .holding hs ha hr (done hd)
  | @releasing b c a x hs ha hr hd hb hx hrel =>
    obtain ⟨hh, hmed⟩ := hn c (by simp [active, hs])
    obtain ⟨y, hy⟩ := after hx
    refine .releasing hs ha hr (done hd) hb hy (r.releases_act hm hh hmed hv ?_ hx hrel hy)
    intro hf
    have hmem : (c, .release t.hold.permits) ∈ t.ledger := by simp [ledger, hr]
    have := List.any_eq_false.1 hroom _ hmem
    simp only [hv, hf, Bool.true_and, Bool.not_eq_true] at this
    exact this
  | returned hs ha hr hd hd' => exact .returned hs ha hr (done hd) (done hd')
  | missed hs hr hb => exact .missed hs hr fun b hab => (hb b hab).act he hm

theorem Works.act (ht : t.Works e) (he : e.Tracked) (hm : e.admits m)
    (hn : ∀ id ∈ t.engaged, m.handles id = false) : t.Works (e.act m) := by
  intro w hw
  obtain ⟨x, hx, hexp⟩ := ht w hw
  have quiet (heng : w ∈ t.engaged) (hexp' : t.Expects x)
      (turn : ∀ call p y s woken, x.phase = .busy call p →
        x.Transition w e.store e.world call p y s woken → t.Expects y)
      (calm : ∀ y g b, t.Expects y → t.Expects { y with signals := g, watched := b }) :
      ∃ y, (e.act m).commits[w]? = some y ∧ t.Expects y :=
    Engine.aside_of he hm (hn w heng) hx hexp' calm turn
  cases hs : t.hold.stage with
  | fresh | acquiring =>
    refine quiet (by simpa [engaged, hs] using hw) hexp ?_ ?_
    · intro call p y s woken hp
      simp only [Expects, hs] at hexp
      rw [hexp.2] at hp
      cases hp
    · intro y g b hy
      simpa only [Expects, hs] using hy
  | holding =>
    refine quiet (by simpa [engaged, hs] using hw) hexp ?_ ?_
    · intro call p y s woken hp htr
      simp only [Expects, hs] at hexp ⊢
      refine ⟨htr.polled hexp.1 hp, fun hb => ?_⟩
      rw [hexp.2 hb] at hp
      cases hp
    · intro y g b hy
      simp only [Expects, hs] at hy ⊢
      exact ⟨hy.1.aside, hy.2⟩
  | _ =>
    simp only [Expects, hs] at hexp ⊢
    obtain ⟨_, y, -, -, hy⟩ := Engine.moved hm hx (he.ne_nextCommit hx)
    exact ⟨y, hy, (Engine.spent_act he hm hx hexp hy).1⟩

end Tenure

def Move.isService : Move β Ω → Bool
  | .poll _ _ | .runSync _ | .settle _ | .drop _ | .wake _ => true
  | _ => false

/-- The engine goes on by the services of somebody who has the given commits. The ledger lists the commits
that are made on the way, the latest first. -/
inductive Engine.Serves (ids : List CommitId) (sem : Semaphore) (e : Engine β Ω) :
    Ledger → Engine β Ω → Prop
  | refl : Serves ids sem e [] e
  | service {l : Ledger} {e' : Engine β Ω} {m : Move β Ω} : Serves ids sem e l e' → e'.admits m →
    m.isService → (∀ k, m.handles k → k ∈ ids ∨ k ∈ l.map Prod.fst) → Serves ids sem e l (e'.act m)
  | commit {l : Ledger} {e' : Engine β Ω} (a : Errand) : Serves ids sem e l e' →
    Serves ids sem e ((e'.nextCommit, a) :: l) (e'.act (.commit (a.tree sem) .never .unit none))

namespace Engine

variable {h : History β Ω} {e e' : Engine β Ω} {m : Move β Ω} {sem : Semaphore} {l l₀ : Ledger}
  {n : Nat} {ids : List CommitId} {id : CommitId} {c : Commit β Ω}

theorem finishes_of_not_advance (he : e.Tracked) (hm : e.admits m) (hn : ∀ k, m ≠ .advance k) :
    finishes id (e, m) = false := by
  cases shift id he hm with
  | keep _ hf | new _ hf | interrupt _ hf => exact hf
  | finish ha => exact absurd ha (hn id)

theorem overflows_of_not_advance (he : e.Tracked) (hm : e.admits m) (hn : ∀ k, m ≠ .advance k) :
    l.overflows sem (e, m) = false := by
  rw [Ledger.overflows, List.any_eq_false]
  intro p _
  simp [finishes_of_not_advance he hm hn]

theorem not_advance_of_isService (hm : m.isService) (k : CommitId) : m ≠ .advance k := by
  rintro rfl
  cases hm

/-- What moves that are no turns preserve, unless they need the handles of the given commits, is preserved
while these are served. The books are kept. -/
theorem Serves.induct {P : Engine β Ω → Prop} (hs : e.Serves ids sem l e') (r : Run h e)
    (acc : e.Accounts sem n l₀) (start : P e)
    (step : ∀ {h e₁ m v}, Run h e₁ → e₁.admits m → e₁.store.value sem.cell = ⟨.nat, v⟩ →
      (∀ k, m ≠ .advance k) → (∀ (k : CommitId) (c : Commit β Ω), e.commits[k]? = some c →
        k ∉ ids → m.handles k = false) → (∀ k, m.meddles k = false) → P e₁ → P (e₁.act m)) :
    (∃ h', Run h' e') ∧ e'.Accounts sem n (l ++ l₀) ∧ P e' ∧
      (∀ (k : CommitId) (c : Commit β Ω), e.commits[k]? = some c → ∃ c', e'.commits[k]? = some c') ∧
      ∀ k ∈ l.map Prod.fst, e.commits[k]? = none := by
  induction hs with
  | refl => exact ⟨⟨h, r⟩, acc, start, fun _ c hc => ⟨c, hc⟩, nofun⟩
  | @service l e₁ m _ hm hserv hids ih =>
    obtain ⟨⟨h', r'⟩, acc', hP, hold, hnew⟩ := ih
    have hadv := not_advance_of_isService hserv
    obtain ⟨v, hv, -⟩ := acc'.balance
    refine ⟨⟨_, r'.next hm⟩, acc'.act r' hm ?_ (overflows_of_not_advance r'.tracked hm hadv),
      step r' hm hv hadv ?_ ?_ hP, ?_, hnew⟩
    · rintro t E A s rfl
      cases hserv
    · intro k c hc hk
      refine Bool.eq_false_iff.2 fun hh => ?_
      rcases hids k hh with hmem | hmem
      · exact hk hmem
      · rw [hnew k hmem] at hc
        cases hc
    · intro k
      cases m <;> first | rfl | cases hserv
    · intro k c hc
      obtain ⟨c', hc'⟩ := hold k c hc
      obtain ⟨_, d, -, -, hd⟩ := moved hm hc' (r'.tracked.ne_nextCommit hc')
      exact ⟨d, hd⟩
  | @commit l e₁ a _ ih =>
    obtain ⟨⟨h', r'⟩, acc', hP, hold, hnew⟩ := ih
    have hm : e₁.admits (.commit (a.tree sem) .never .unit none) := rfl
    obtain ⟨v, hv, -⟩ := acc'.balance
    refine ⟨⟨_, r'.next hm⟩, acc'.enter r', step r' hm hv nofun (fun _ _ _ _ => rfl) (fun _ => rfl) hP,
      ?_, ?_⟩
    · intro k c hc
      obtain ⟨c', hc'⟩ := hold k c hc
      obtain ⟨_, d, -, -, hd⟩ := moved hm hc' (r'.tracked.ne_nextCommit hc')
      exact ⟨d, hd⟩
    · rw [List.map_cons, List.forall_mem_cons]
      refine ⟨?_, hnew⟩
      cases hc : e.commits[e₁.nextCommit]? with
      | none => rfl
      | some c =>
        obtain ⟨c', hc'⟩ := hold _ c hc
        exact absurd rfl (r'.tracked.ne_nextCommit hc')

theorem Serves.kept (hs : e.Serves ids sem l e') (r : Run h e) (acc : e.Accounts sem n l₀) :
    (∃ h', Run h' e') ∧ e'.Accounts sem n (l ++ l₀) ∧
      ∀ k ∈ l.map Prod.fst, e.commits[k]? = none := by
  obtain ⟨hrun, hacc, -, -, hnew⟩ :=
    hs.induct (P := fun _ => True) r acc trivial fun _ _ _ _ _ _ _ => trivial
  exact ⟨hrun, hacc, hnew⟩

theorem Serves.isDone (hs : e.Serves ids sem l e') (r : Run h e) (acc : e.Accounts sem n l₀) :
    e'.isDone id = e.isDone id := by
  refine (hs.induct (P := fun e₁ => e₁.isDone id = e.isDone id) r acc rfl ?_).2.2.1
  intro h e₁ m v r' hm _ hadv _ _ ih
  rw [isDone_act r'.tracked hm, finishes_of_not_advance r'.tracked hm hadv, Bool.or_false, ih]

end Engine

namespace Tenure

variable {h : History β Ω} {e e' : Engine β Ω} {sem : Semaphore} {l l₀ : Ledger} {n : Nat}
  {ids : List CommitId} {t : Tenure β}

theorem Stands.exists_of_active (ht : t.Stands sem e) {id : CommitId} (hid : id ∈ t.active) :
    ∃ c, e.commits[id]? = some c := by
  cases ht with
  | fresh hs | holding hs | returned hs | missed hs => simp [active, hs] at hid
  | acquiring hs _ _ hx =>
    simp only [active, hs, List.mem_singleton] at hid
    exact hid ▸ ⟨_, hx⟩
  | releasing hs _ _ _ _ hx =>
    simp only [active, hs, List.mem_singleton] at hid
    exact hid ▸ ⟨_, hx⟩

theorem Stands.served (ht : t.Stands sem e) (hs : e.Serves ids sem l e') (r : Run h e)
    (acc : e.Accounts sem n l₀) (hids : ∀ id ∈ t.active, id ∉ ids) : t.Stands sem e' := by
  refine (hs.induct (P := t.Stands sem) r acc ht ?_).2.2.1
  intro h e₁ m v r' hm hv hadv hh hmed ih
  refine ih.act r' hm hv (fun id hid => ⟨?_, hmed id⟩)
    (Engine.overflows_of_not_advance r'.tracked hm hadv)
  obtain ⟨c, hc⟩ := ht.exists_of_active hid
  exact hh id c hc (hids id hid)

theorem engaged_subset : t.engaged ⊆ t.hold.work.commits := by
  unfold engaged
  split
  · exact List.nil_subset _
  · exact List.nil_subset _
  · exact List.Subset.refl _

theorem Works.served (ht : t.Works e) (hs : e.Serves ids sem l e') (r : Run h e)
    (acc : e.Accounts sem n l₀) (hids : ∀ id ∈ t.engaged, id ∉ ids) : t.Works e' := by
  refine (hs.induct (P := t.Works) r acc ht ?_).2.2.1
  intro h e₁ m v r' hm _ _ hh _ ih
  refine ih.act r'.tracked hm fun id hid => ?_
  obtain ⟨c, hc, -⟩ := ht id (engaged_subset hid)
  exact hh id c hc (hids id hid)

end Tenure

end TransactionalMemory
