import TransactionalMemory.Proofs.Holds

/-! The permits of a semaphore are conserved, whatever becomes of the holds at its site. -/

namespace TransactionalMemory

variable {β : Type} [Universe β] {Ω : Type}

namespace Tenure

variable {e : Engine β Ω} {sem : Semaphore} {t : Tenure β}

theorem Stands.own_of_active (ht : t.Stands sem e) : t.active ⊆ t.own := by
  intro id hid
  cases ht with
  | fresh hs | holding hs | returned hs | missed hs => simp [active, hs] at hid
  | acquiring hs ha hr => simpa [active, own, hs, ha, hr] using hid
  | releasing hs _ hr =>
    simp only [active, hs, List.mem_singleton] at hid
    simp [own, hr, hid]

theorem Stands.balance (ht : t.Stands sem e) (hb : t.busy = false) :
    t.ledger.taken e = t.ledger.given e + t.permits e := by
  cases ht with
  | fresh hs ha hr => simp [ledger, ha, hr, Ledger.taken, Ledger.given, Ledger.total, permits, took]
  | @acquiring c x hs ha hr hx hacq =>
    have hn : e.isDone c = false := by
      cases hacq.kept with
      | fresh hsig => simp [Engine.isDone, Engine.state?, hx, hsig]
      | done _ hv =>
        rw [hacq.still hb] at hv
        cases hv
    simp [ledger, ha, hr, Ledger.taken, Ledger.given, Ledger.total, permits, took, hn]
  | holding hs ha hr hd =>
    simp [ledger, ha, hr, Ledger.taken, Ledger.given, Ledger.total, permits, took, hd, hs,
      HoldStage.isOver, Errand.taken, Errand.given]
  | releasing _ _ _ _ hb' =>
    rw [hb] at hb'
    cases hb'
  | returned hs ha hr hd hd' =>
    simp [ledger, ha, hr, Ledger.taken, Ledger.given, Ledger.total, permits, took, hd, hd', hs,
      HoldStage.isOver, Errand.taken, Errand.given]
  | missed hs hr hm =>
    cases ha : t.acquisition with
    | none => simp [ledger, ha, hr, Ledger.taken, Ledger.given, Ledger.total, permits, took]
    | some b =>
      simp [ledger, ha, hr, Ledger.taken, Ledger.given, Ledger.total, permits, took,
        (hm b ha).unpublished]

structure Void (t : Tenure β) : Prop where
  ended : t.hold.stage = .over
  still : t.busy = false
  empty : t.restitution = none

theorem Void.missed (hv : t.Void) (ht : t.Stands sem e) {id : CommitId}
    (ha : t.acquisition = some id) : e.Missed id := by
  cases ht with
  | missed _ _ hm => exact hm id ha
  | returned _ _ hr => cases hv.empty.symm.trans hr
  | fresh hs | acquiring hs | holding hs | releasing hs => cases hv.ended.symm.trans hs

theorem void_of_drop (hr : t.restitution = none)
    (hn : t.hold.stage ≠ .holding) : (t.become (t.hold.drop e).1).Void ∧
      (t.become (t.hold.drop e).1).acquisition = t.acquisition := by
  have hadv : (t.hold.drop e).1 = { t.hold with stage := .over, answer := some .dropped } := by
    unfold Hold.drop
    cases hs : t.hold.stage with
    | holding => exact absurd hs hn
    | _ => rfl
  rw [hadv, become_eq (by rintro _ ⟨⟩) (by rintro _ _ ⟨⟩)]
  exact ⟨⟨rfl, rfl, hr⟩, rfl⟩

theorem Stands.of_not_took (ht : t.Stands sem e) (hn : t.took e = false) :
    t.restitution = none ∧ t.hold.stage ≠ .holding := by
  cases ht with
  | fresh hs _ hr | acquiring hs _ hr | missed hs hr =>
    refine ⟨hr, ?_⟩
    rw [hs]
    exact nofun
  | holding _ ha _ hd | releasing _ ha _ hd | returned _ ha _ hd => simp [took, ha, hd] at hn

end Tenure

def Deed.hold? {sem : Semaphore} : Deed β Ω sem → Option Nat
  | .poll i _ | .turn i | .drop i => some i
  | _ => none

theorem Engine.Serves.wakes {e e' : Engine β Ω} {ids : List CommitId} {sem : Semaphore} {l : Ledger}
    (hs : e.Serves ids sem l e') (ws : List Waker) : e.Serves ids sem l (ws.foldl wake e') := by
  induction ws generalizing e' with
  | nil => exact hs
  | cons w ws ih => exact ih (hs.service (m := .wake w) rfl rfl nofun)

namespace Site

variable {sem : Semaphore} {n : Nat} {s s₀ s' : Site β Ω}

structure Sound (sem : Semaphore) (n : Nat) (s : Site β Ω) : Prop where
  run : ∃ h, Run h s.engine
  accounts : s.engine.Accounts sem n s.ledger
  semaphores : ∀ t ∈ s.tenures, t.hold.semaphore = sem
  distinct : (s.tenures.flatMap Tenure.has).Nodup
  stands : ∀ t ∈ s.tenures, t.Stands sem s.engine
  works : ∀ t ∈ s.tenures, t.Works s.engine

theorem Opens.sound (h : Opens sem n s) : s.Sound sem n where
  run := h.run
  accounts := by
    refine ⟨h.cell, ?_, ?_, fun id c hc => .inr (h.others id c hc), n, h.count, ?_⟩
    all_goals simp [ledger, h.tenures, h.errands, Ledger.taken, Ledger.given, Ledger.total]
  semaphores := by simp [h.tenures]
  distinct := by simp [h.tenures]
  stands := by simp [h.tenures]
  works := by simp [h.tenures]

theorem Opens.of_alloc {h : History β Ω} {e : Engine β Ω} (r : Run h e)
    (hc : e.store.nextCell = sem.cell) (others : ∀ (id : CommitId) (c : Commit β Ω),
      e.commits[id]? = some c → c.tree.Leaves sem.cell) :
    Opens sem n { engine := e.act (.alloc ⟨.nat, n⟩) : Site β Ω } where
  run := ⟨_, r.next (m := .alloc ⟨.nat, n⟩) rfl⟩
  cell := by simp [Engine.act, Store.alloc, hc]
  count := by simp [Engine.act, Store.value, Store.version_alloc, hc]
  others := others
  tenures := rfl
  errands := rfl

theorem Sound.exists_of_has (hs : s.Sound sem n) {id : CommitId}
    (hid : id ∈ s.tenures.flatMap Tenure.has) : ∃ c, s.engine.commits[id]? = some c := by
  obtain ⟨t, ht, hid⟩ := List.mem_flatMap.1 hid
  rcases List.mem_append.1 hid with hown | hwork
  · have hmem : ∃ a, (id, a) ∈ t.ledger := by
      rcases List.mem_append.1 hown with ha | hr
      · exact ⟨_, List.mem_append_left _ (List.mem_map_of_mem ha)⟩
      · exact ⟨_, List.mem_append_right _ (List.mem_map_of_mem hr)⟩
    obtain ⟨a, hmem⟩ := hmem
    obtain ⟨c, hc, -⟩ :=
      hs.accounts.exists (List.mem_append_right _ (List.mem_flatMap.2 ⟨t, ht, hmem⟩))
    exact ⟨c, hc⟩
  · obtain ⟨c, hc, -⟩ := hs.works t ht id hwork
    exact ⟨c, hc⟩

theorem Sound.nodup_has (hs : s.Sound sem n) {t : Tenure β} (ht : t ∈ s.tenures) : t.has.Nodup := by
  obtain ⟨l₁, l₂, h⟩ := List.append_of_mem ht
  have := hs.distinct
  rw [h, List.flatMap_append, List.flatMap_cons, List.nodup_append, List.nodup_append] at this
  exact this.2.1.1

theorem Sound.move (hs : s.Sound sem n) {m : Move β Ω} (hm : s.engine.admits m)
    (hh : ∀ t ∈ s.tenures, ∀ id ∈ t.has, m.handles id = false)
    (hmed : ∀ t ∈ s.tenures, ∀ id ∈ t.own, m.meddles id = false)
    (hroom : s.ledger.overflows sem (s.engine, m) = false) {l : Ledger}
    (hl : (s.engine.act m).Accounts sem n (l ++ s.tenures.flatMap Tenure.ledger)) :
    { s with engine := s.engine.act m, errands := l }.Sound sem n := by
  obtain ⟨h, r⟩ := hs.run
  obtain ⟨v, hv, -⟩ := hs.accounts.balance
  refine ⟨⟨_, r.next hm⟩, hl, hs.semaphores, hs.distinct, fun t ht => ?_, fun t ht => ?_⟩
  · refine (hs.stands t ht).act r hm hv (fun id hid => ?_) ?_
    · have hown := (hs.stands t ht).own_of_active hid
      exact ⟨hh t ht id (Tenure.mem_has hown), hmed t ht id hown⟩
    · rw [Ledger.overflows, List.any_eq_false] at hroom ⊢
      exact fun p hp => hroom p (List.mem_append_right _ (List.mem_flatMap.2 ⟨t, ht, hp⟩))
  · exact (hs.works t ht).act r.tracked hm fun id hid =>
      hh t ht id (List.mem_append_right _ (Tenure.engaged_subset hid))

theorem Sound.served (hs : s.Sound sem n) {e' : Engine β Ω} {ids : List CommitId} {l : Ledger}
    (hserves : s.engine.Serves ids sem l e') {t : Tenure β} (ht : t ∈ s.tenures)
    (hids : ∀ id ∈ t.has, id ∉ ids) : t.Stands sem e' ∧ t.Works e' := by
  obtain ⟨h, r⟩ := hs.run
  refine ⟨(hs.stands t ht).served hserves r hs.accounts fun id hid => ?_,
    (hs.works t ht).served hserves r hs.accounts fun id hid => ?_⟩
  · exact hids id (Tenure.mem_has ((hs.stands t ht).own_of_active hid))
  · exact hids id (List.mem_append_right _ (Tenure.engaged_subset hid))

theorem perm_between {γ : Type} {a b l x y : List γ} (h : b.Perm (l ++ a)) :
    (x ++ (b ++ y)).Perm (l ++ (x ++ (a ++ y))) := by
  have := (h.append_right y).append_left x
  rw [List.append_assoc] at this
  exact this.trans (List.perm_append_comm_assoc x l (a ++ y))

theorem Sound.pass (hs : s.Sound sem n) {i : Nat} {t t' : Tenure β} {gates : Hold.Gates β}
    {e' : Engine β Ω} (hi : s.tenures[i]? = some t) (hp : t.Passes sem s.engine e' t') :
    (s.set i t' gates e').Sound sem n := by
  obtain ⟨h, r⟩ := hs.run
  obtain ⟨hlt, hget⟩ := List.getElem?_eq_some_iff.1 hi
  obtain ⟨l₁, l₂, hold, hnew⟩ :
      ∃ l₁ l₂, s.tenures = l₁ ++ t :: l₂ ∧ s.tenures.set i t' = l₁ ++ t' :: l₂ := by
    obtain ⟨l₁, l₂, hold, -, hnew⟩ := List.exists_of_set hlt
    exact ⟨l₁, l₂, hget ▸ hold, hnew⟩
  obtain ⟨⟨l, hserves, hledger, hhas⟩, hsem, hstands, hworks⟩ := hp
  obtain ⟨hrun, hacc, hfresh⟩ := hserves.kept r hs.accounts
  have hlp : (s.set i t' gates e').ledger.Perm (l ++ s.ledger) := by
    simp only [ledger, set]
    rw [hnew, hold]
    simp only [List.flatMap_append, List.flatMap_cons, ← List.append_assoc s.errands]
    exact perm_between hledger
  have hhp : ((s.set i t' gates e').tenures.flatMap Tenure.has).Perm
      (l.map Prod.fst ++ s.tenures.flatMap Tenure.has) := by
    simp only [set]
    rw [hnew, hold]
    simp only [List.flatMap_append, List.flatMap_cons]
    exact perm_between hhas
  have hdist := hs.distinct
  rw [hold, List.flatMap_append, List.flatMap_cons, List.nodup_append, List.nodup_append] at hdist
  obtain ⟨-, ⟨-, -, hright⟩, hleft⟩ := hdist
  have elsewhere (u : Tenure β) (hu : u ∈ l₁ ∨ u ∈ l₂) :
      u ∈ s.tenures ∧ ∀ id ∈ u.has, id ∉ t.has := by
    rcases hu with hu | hu
    · refine ⟨by simp [hold, hu], fun id hid hid' => ?_⟩
      exact hleft id (List.mem_flatMap.2 ⟨u, hu, hid⟩) id (List.mem_append_left _ hid') rfl
    · refine ⟨by simp [hold, hu], fun id hid hid' => ?_⟩
      exact hright id hid' id (List.mem_flatMap.2 ⟨u, hu, hid⟩) rfl
  have each (u : Tenure β) (hu : u ∈ (s.set i t' gates e').tenures) :
      u.hold.semaphore = sem ∧ u.Stands sem e' ∧ u.Works e' := by
    simp only [set, hnew, List.mem_append, List.mem_cons] at hu
    by_cases heq : u = t'
    · subst heq
      exact ⟨hsem.trans (hs.semaphores t (by simp [hold])), hstands, hworks⟩
    · obtain ⟨hmem, hdisj⟩ := elsewhere u (hu.imp_right fun h => h.resolve_left heq)
      exact ⟨hs.semaphores u hmem, hs.served hserves hmem hdisj⟩
  refine ⟨hrun, hacc.perm hlp, fun u hu => (each u hu).1, ?_, fun u hu => (each u hu).2.1,
    fun u hu => (each u hu).2.2⟩
  rw [hhp.nodup_iff, List.nodup_append]
  refine ⟨?_, hs.distinct, ?_⟩
  · have := hacc.distinct
    rw [List.map_append, List.nodup_append] at this
    exact this.1
  · rintro id hid _ hid' rfl
    obtain ⟨c, hc⟩ := hs.exists_of_has hid'
    rw [hfresh id hid] at hc
    cases hc

theorem Sound.passes (hs : s.Sound sem n) {d : Deed β Ω sem} (hd : s.admits d) {i : Nat}
    (hi : d.hold? = some i) : ∃ t t' gates e', s.tenures[i]? = some t ∧
      t.Passes sem s.engine e' t' ∧ s.act d = s.set i t' gates e' := by
  obtain ⟨h, r⟩ := hs.run
  have found {p : Tenure β → Bool} (hp : (s.tenures[i]?).any p) :
      ∃ t, s.tenures[i]? = some t ∧ t ∈ s.tenures ∧ p t := by
    obtain ⟨t, ht, hpt⟩ := (Option.any_eq_true _ _).1 hp
    exact ⟨t, ht, List.mem_of_getElem? ht, hpt⟩
  cases d with
  | poll k w =>
    cases hi
    obtain ⟨t, ht, hmem, -⟩ := found hd
    exact ⟨t, _, _, _, ht, (hs.stands t hmem).poll (hs.works t hmem) w, by simp only [act, ht]; rfl⟩
  | turn k =>
    cases hi
    obtain ⟨t, ht, hmem, hp⟩ := found hd
    simp only [Bool.and_eq_true, Option.isNone_iff_eq_none] at hp
    exact ⟨t, _, _, _, ht, (hs.stands t hmem).turn r hs.accounts (hs.works t hmem)
      (hs.nodup_has hmem) (hs.semaphores t hmem) hp.1 hp.2 s.gates,
      by simp only [act, ht]; rfl⟩
  | drop k =>
    cases hi
    obtain ⟨t, ht, hmem, hp⟩ := found hd
    exact ⟨t, _, _, _, ht, (hs.stands t hmem).drop r hs.accounts (hs.works t hmem)
      (hs.nodup_has hmem) (hs.semaphores t hmem) (by simpa using hp),
      by simp only [act, ht]; rfl⟩
  | errand | other | move | hold | openGate => cases hi

theorem Sound.enter (hs : s.Sound sem n) {t : Tenure β} (hsem : t.hold.semaphore = sem)
    (hst : t.hold.stage = .fresh) (ha : t.acquisition = none) (hr : t.restitution = none)
    (hfree : ∀ c ∈ t.hold.work.commits, s.engine.isFree c ∧ ∀ u ∈ s.tenures, c ∉ u.has) :
    { s with tenures := s.tenures ++ [t] }.Sound sem n := by
  have hhas : t.has = t.hold.work.commits := by simp [Tenure.has, Tenure.own, ha, hr]
  have hledger : t.ledger = [] := by simp [Tenure.ledger, ha, hr]
  refine ⟨hs.run, ?_, ?_, ?_, ?_, ?_⟩
  · simp only [ledger, List.flatMap_append, List.flatMap_singleton, hledger, List.append_nil]
    exact hs.accounts
  · exact List.forall_mem_append.2 ⟨hs.semaphores, List.forall_mem_singleton.2 hsem⟩
  · simp only [List.flatMap_append, List.flatMap_singleton, hhas]
    refine List.nodup_append.2 ⟨hs.distinct, ?_, ?_⟩
    · cases t.hold.work <;> simp [Work.commits]
    · rintro id hid _ hid' rfl
      obtain ⟨u, hu, hmem⟩ := List.mem_flatMap.1 hid
      exact (hfree id hid').2 u hu hmem
  · exact List.forall_mem_append.2 ⟨hs.stands, List.forall_mem_singleton.2 (.fresh hst ha hr)⟩
  · refine List.forall_mem_append.2 ⟨hs.works, List.forall_mem_singleton.2 fun w hw => ?_⟩
    obtain ⟨x, hx⟩ := Engine.exists_of_isFree (hfree w hw).1
    refine ⟨x, hx, ?_⟩
    simpa only [Tenure.Expects, hst] using Engine.held_of_isFree (hfree w hw).1 hx

/-- Whatever is done at the site, as long as no release finds the semaphore full. -/
theorem Sound.act (hs : s.Sound sem n) {d : Deed β Ω sem} (hd : s.admits d)
    (hroom : s.overflows d = false) : (s.act d).Sound sem n := by
  obtain ⟨h, r⟩ := hs.run
  have calm {m : Move β Ω} (hm : s.engine.admits m) (hn : ∀ k, m ≠ .advance k) :
      s.ledger.overflows sem (s.engine, m) = false :=
    Engine.overflows_of_not_advance r.tracked hm hn
  cases d with
  | errand a E d =>
    refine hs.move (m := .commit _ E .unit d) rfl (fun _ _ _ _ => rfl) (fun _ _ _ _ => rfl)
      (calm rfl nofun) ?_
    rw [Errand.tree_tx]
    exact hs.accounts.enter r
  | other t leaves E A d =>
    refine hs.move (m := .commit t E A d) rfl (fun _ _ _ _ => rfl) (fun _ _ _ _ => rfl)
      (calm rfl nofun) (hs.accounts.act r rfl ?_ (calm rfl nofun))
    rintro _ _ _ _ ⟨⟩
    exact leaves
  | move m =>
    simp only [admits, Bool.and_eq_true, List.all_eq_true, Bool.not_eq_true'] at hd
    obtain ⟨⟨hm, hnot⟩, hfree⟩ := hd
    refine hs.move hm (fun t ht => (hfree t ht).1) (fun t ht => (hfree t ht).2) hroom
      (hs.accounts.act r hm ?_ hroom)
    rintro _ _ _ _ rfl
    cases hnot
  | hold k work =>
    simp only [admits, List.all_eq_true, Bool.and_eq_true, Bool.not_eq_true',
      List.contains_eq_mem, decide_eq_false_iff_not] at hd
    exact hs.enter rfl rfl rfl rfl hd
  | poll | turn | drop =>
    obtain ⟨t, t', gates, e', hi, hp, heq⟩ := hs.passes hd rfl
    rw [heq]
    exact hs.pass hi hp
  | openGate g res =>
    have hserves : s.engine.Serves [] sem [] (s.act (.openGate g res : Deed β Ω sem)).engine :=
      Engine.Serves.refl.wakes _
    obtain ⟨hrun, hacc, -⟩ := hserves.kept r hs.accounts
    exact ⟨hrun, hacc, hs.semaphores, hs.distinct,
      fun t ht => (hs.served hserves ht fun _ _ => nofun).1,
      fun t ht => (hs.served hserves ht fun _ _ => nofun).2⟩

theorem Leads.sound (hl : Leads sem s₀ s) (h : s₀.Sound sem n) : s.Sound sem n := by
  induction hl with
  | refl => exact h
  | next _ hd hroom ih => exact ih.act hd hroom

theorem Sound.held_eq (hs : s.Sound sem n) (hrest : s.atRest) :
    Ledger.taken (s.tenures.flatMap Tenure.ledger) s.engine =
      Ledger.given (s.tenures.flatMap Tenure.ledger) s.engine + s.held := by
  have hb : ∀ t ∈ s.tenures, t.ledger.taken s.engine = t.ledger.given s.engine + t.permits s.engine := by
    simp only [atRest, List.all_eq_true, Bool.not_eq_true'] at hrest
    exact fun t ht => (hs.stands t ht).balance (hrest t ht)
  unfold held
  generalize s.tenures = l at hb
  induction l with
  | nil => rfl
  | cons t l ih =>
    obtain ⟨ht, hl⟩ := List.forall_mem_cons.1 hb
    have := ih hl
    unfold Ledger.taken Ledger.given at ht this ⊢
    rw [List.flatMap_cons, Ledger.total_append, Ledger.total_append, List.map_cons, List.foldr_cons]
    omega

theorem Sound.passes_isDone (hs : s.Sound sem n) {t t' : Tenure β} {e' : Engine β Ω}
    (hp : t.Passes sem s.engine e' t') (id : CommitId) : e'.isDone id = s.engine.isDone id := by
  obtain ⟨h, r⟩ := hs.run
  obtain ⟨l, hserves, -⟩ := hp.serves
  exact hserves.isDone r hs.accounts

theorem Sound.enough (hs : s.Sound sem n) {d : Deed β Ω sem} (hd : s.admits d) {id : CommitId}
    {k v : Nat} (hmem : (id, .acquire k) ∈ s.ledger) (hn : s.engine.isDone id = false)
    (hdone : (s.act d).engine.isDone id) (hv : s.engine.store.value sem.cell = ⟨.nat, v⟩) : k ≤ v := by
  obtain ⟨h, r⟩ := hs.run
  obtain ⟨c, hc, ht⟩ := hs.accounts.exists hmem
  have moved {m : Move β Ω} (hm : s.engine.admits m) (hdone : (s.engine.act m).isDone id) : k ≤ v := by
    rw [Engine.isDone_act r.tracked hm, hn, Bool.false_or] at hdone
    have hleft := (r.left_of_finishes hm hdone hc ht hv).1
    refine Classical.byContradiction fun hlt => hleft ?_
    simp only [Errand.outcome, hlt, if_false]
  have kept (h : (s.act d).engine.isDone id = s.engine.isDone id) : k ≤ v := by
    rw [h, hn] at hdone
    cases hdone
  cases d with
  | errand a E d => exact moved (m := .commit _ E .unit d) rfl hdone
  | other t leaves E A d => exact moved (m := .commit t E A d) rfl hdone
  | move m =>
    simp only [admits, Bool.and_eq_true] at hd
    exact moved hd.1.1 hdone
  | hold => exact kept rfl
  | poll | turn | drop =>
    obtain ⟨t, t', gates, e', -, hp, heq⟩ := hs.passes hd rfl
    exact kept (by rw [heq]; exact hs.passes_isDone hp id)
  | openGate g res =>
    have hserves : s.engine.Serves [] sem [] (s.act (.openGate g res : Deed β Ω sem)).engine :=
      Engine.Serves.refl.wakes _
    exact kept (hserves.isDone r hs.accounts)

theorem Sound.void_act (hs : s.Sound sem n) {d : Deed β Ω sem} (hd : s.admits d) {i : Nat}
    {t : Tenure β} (hi : s.tenures[i]? = some t) (hv : t.Void) :
    ∃ t', (s.act d).tenures[i]? = some t' ∧ t'.Void ∧ t'.acquisition = t.acquisition := by
  by_cases hk : d.hold? = some i
  · cases d with
    | poll k w =>
      cases hk
      simp [admits, hi, hv.ended, HoldStage.isOver] at hd
    | turn k =>
      cases hk
      simp [admits, hi, hv.still] at hd
    | drop k =>
      cases hk
      obtain ⟨hlt, -⟩ := List.getElem?_eq_some_iff.1 hi
      refine ⟨t.become (t.hold.drop s.engine).1, ?_,
        Tenure.void_of_drop hv.empty (by rw [hv.ended]; exact nofun)⟩
      simp only [Site.act, hi, set, List.getElem?_set_self hlt]
    | errand | other | move | hold | openGate => cases hk
  · refine ⟨t, ?_, hv, rfl⟩
    cases d with
    | errand | other | move | openGate => exact hi
    | hold => exact (List.getElem?_append_left (List.getElem?_eq_some_iff.1 hi).1).trans hi
    | poll k | turn k | drop k =>
      have hne : k ≠ i := fun h => hk (congrArg some h)
      obtain ⟨_, t', gates, e', -, -, heq⟩ := hs.passes hd rfl
      rw [heq, set, List.getElem?_set_ne hne]
      exact hi

theorem Leads.trans (h : Leads sem s₀ s) (h' : Leads sem s s') : Leads sem s₀ s' := by
  induction h' with
  | refl => exact h
  | next _ hd hroom ih => exact ih.next hd hroom

theorem Leads.void (hl : Leads sem s s') (hs : s.Sound sem n) {i : Nat} {t : Tenure β}
    (hi : s.tenures[i]? = some t) (hv : t.Void) :
    ∃ t', s'.tenures[i]? = some t' ∧ t'.Void ∧ t'.acquisition = t.acquisition := by
  induction hl with
  | refl => exact ⟨t, hi, hv, rfl⟩
  | next hl hd _ ih =>
    obtain ⟨u, hu, hvu, ha⟩ := ih
    obtain ⟨t', ht', hv', ha'⟩ := (hl.sound hs).void_act hd hu hvu
    exact ⟨t', ht', hv', ha'.trans ha⟩

theorem Sound.dropped (hs : s.Sound sem n) {i : Nat} {t : Tenure β} (hi : s.tenures[i]? = some t)
    (hd : s.admits (.drop i : Deed β Ω sem)) (hn : t.took s.engine = false)
    (hl : Leads sem (s.act (.drop i : Deed β Ω sem)) s') :
    ∃ t', s'.tenures[i]? = some t' ∧ t'.own = t.own ∧ t'.took s'.engine = false ∧
      ∀ id ∈ t'.own, ∀ (d : CellId) (f : FiberId), (s'.engine.store.waiting d)[f]? ≠ some id := by
  have hmem := List.mem_of_getElem? hi
  obtain ⟨hr, hnot⟩ := (hs.stands t hmem).of_not_took hn
  obtain ⟨hlt, -⟩ := List.getElem?_eq_some_iff.1 hi
  obtain ⟨hvoid, hacq⟩ := Tenure.void_of_drop (e := s.engine) hr hnot
  have hi' : (s.act (.drop i : Deed β Ω sem)).tenures[i]? =
      some (t.become (t.hold.drop s.engine).1) := by
    simp only [Site.act, hi, set, List.getElem?_set_self hlt]
  have hs' := hs.act hd rfl
  obtain ⟨t', ht', hv', ha'⟩ := hl.void hs' hi' hvoid
  have hmissed {id : CommitId} (ha : t'.acquisition = some id) : s'.engine.Missed id :=
    hv'.missed ((hl.sound hs').stands t' (List.mem_of_getElem? ht')) ha
  refine ⟨t', ht', ?_, ?_, fun id hid => ?_⟩
  · simp only [Tenure.own, ha'.trans hacq, hv'.empty, hr]
  · cases ha : t'.acquisition with
    | none => simp [Tenure.took, ha]
    | some id => simp [Tenure.took, ha, (hmissed ha).unpublished]
  · simp only [Tenure.own, hv'.empty, Option.toList_none, List.append_nil, Option.mem_toList] at hid
    exact (hmissed hid).unlisted

/-- At all times the semaphore has a count. Between any two polls or drops of holds, the count together
with the permits that holds have is what the semaphore began with and others than holds have released,
less what others than holds have acquired. What acquires permits is published only when there are as
many. And a hold that is dropped before it has its permits never takes them, and is on no waiting list. -/
theorem Leads.conserved (ho : Opens sem n s₀) (hl : Leads sem s₀ s) :
    ∃ v : Nat, s.engine.store.value sem.cell = ⟨.nat, v⟩ ∧
      (s.atRest → v + s.held + s.errands.taken s.engine = n + s.errands.given s.engine) ∧
      (∀ d : Deed β Ω sem, s.admits d → ∀ id k, (id, .acquire k) ∈ s.ledger →
        s.engine.isDone id = false → (s.act d).engine.isDone id → k ≤ v) ∧
      ∀ i t, s.tenures[i]? = some t → s.admits (.drop i : Deed β Ω sem) → t.took s.engine = false →
        ∀ s', Leads sem (s.act (.drop i : Deed β Ω sem)) s' → ∃ t', s'.tenures[i]? = some t' ∧
          t'.own = t.own ∧ t'.took s'.engine = false ∧ ∀ id ∈ t'.own, ∀ (d : CellId) (f : FiberId),
            (s'.engine.store.waiting d)[f]? ≠ some id := by
  have hs := hl.sound ho.sound
  obtain ⟨v, hv, hb⟩ := hs.accounts.balance
  refine ⟨v, hv, fun hrest => ?_, fun d hd id k hmem hn hdone => hs.enough hd hmem hn hdone hv,
    fun i t hi hd hn s' hl' => hs.dropped hi hd hn hl'⟩
  have hheld := hs.held_eq hrest
  unfold ledger at hb
  unfold Ledger.taken Ledger.given at hb hheld ⊢
  rw [Ledger.total_append, Ledger.total_append] at hb
  omega

end Site

def contention : List (Deed Scenario.Base Unit ⟨⟨1⟩⟩) :=
  let turns (n i : Nat) : List (Deed Scenario.Base Unit ⟨⟨1⟩⟩) :=
    List.replicate n (.move (.advance ⟨i⟩))
  [.hold 2 (.gate ⟨1⟩), .poll 0 .thread, .turn 0, .turn 0] ++ turns 10 1 ++
  [.turn 0, .turn 0, .hold 1 (.gate ⟨1⟩), .poll 1 .thread, .turn 1, .turn 1] ++ turns 9 2 ++
  [.turn 1, .other _ (Semaphore.leaves_available (R := .unit) (E := .never) ⟨⟨1⟩⟩ _) .never .nat none,
    .move (.runSync ⟨3⟩)] ++ turns 3 3

def mishap : List (Deed Scenario.Base Unit ⟨⟨1⟩⟩) :=
  [.openGate ⟨1⟩ (.error .other), .poll 0 .thread, .turn 0] ++
  List.replicate 9 (.move (.advance ⟨4⟩)) ++ [.turn 0]

theorem conserved_contention :
    let s₀ : Site Scenario.Base Unit :=
      { engine := Engine.act { world := () } (.alloc ⟨.nat, (2 : Nat)⟩) }
    let s := s₀.play contention
    let s' := (s.act (.drop 1 : Deed Scenario.Base Unit ⟨⟨1⟩⟩)).play mishap
    s.held = 2 ∧ s.engine.store.value ⟨1⟩ = ⟨.nat, (0 : Nat)⟩ ∧
      s'.held = 0 ∧ s'.engine.store.value ⟨1⟩ = ⟨.nat, (2 : Nat)⟩ ∧
      ∀ (d : CellId) (f : FiberId), (s'.engine.store.waiting d)[f]? ≠ some ⟨2⟩ := by
  -- The second hold is dropped while it waits, and then the first one loses its permits.
  intro s₀ s s'
  have ho : Site.Opens ⟨⟨1⟩⟩ 2 s₀ := Site.Opens.of_alloc (Run.start ()) rfl (by simp)
  have hl : Site.Leads ⟨⟨1⟩⟩ s₀ s := Site.Leads.refl.play contention (by decide +kernel)
  have hd : s.admits (.drop 1 : Deed Scenario.Base Unit ⟨⟨1⟩⟩) := by decide +kernel
  have hl' : Site.Leads ⟨⟨1⟩⟩ (s.act (.drop 1 : Deed Scenario.Base Unit ⟨⟨1⟩⟩)) s' :=
    Site.Leads.refl.play mishap (by decide +kernel)
  have held : s.held = 2 := by decide +kernel
  have held' : s'.held = 0 := by decide +kernel
  obtain ⟨v, hv, hcount, -, hdrop⟩ := Site.Leads.conserved ho hl
  obtain ⟨v', hv', hcount', -⟩ := Site.Leads.conserved ho ((hl.next hd rfl).trans hl')
  have hsum := hcount (by decide +kernel)
  have hsum' := hcount' (by decide +kernel)
  obtain ⟨t, ht⟩ : ∃ t, s.tenures[1]? = some t := Option.isSome_iff_exists.1 (by decide +kernel)
  have hwait : (s.tenures[1]?).all fun t => !t.took s.engine && t.own.contains ⟨2⟩ := by
    decide +kernel
  rw [ht, Option.all_some, Bool.and_eq_true, Bool.not_eq_true', List.contains_iff_mem] at hwait
  obtain ⟨t', -, hown, -, hlists⟩ := hdrop 1 t ht hd hwait.1 s' hl'
  have hnone (u : Site Scenario.Base Unit) (hu : u.errands.length = 0) :
      u.errands.taken u.engine = 0 ∧ u.errands.given u.engine = 0 := by
    rw [List.eq_nil_of_length_eq_zero hu]
    exact ⟨rfl, rfl⟩
  have hs := hnone s (by decide +kernel)
  have hs' := hnone s' (by decide +kernel)
  obtain rfl : v = 0 := by omega
  obtain rfl : v' = 2 := by omega
  exact ⟨held, hv, held', hv', hlists ⟨2⟩ (hown ▸ hwait.2)⟩

end TransactionalMemory
