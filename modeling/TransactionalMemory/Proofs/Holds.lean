import TransactionalMemory.Proofs.Tenure

namespace TransactionalMemory

variable {β : Type} [Universe β] {Ω : Type}

namespace Engine

variable {e : Engine β Ω} {id : CommitId} {c : Commit β Ω}

theorem isFree_of (hc : e.commits[id]? = some c) (hh : c.held) (hi : c.phase = .idle) :
    e.isFree id := by
  simp [isFree, hc, hh, hi, Phase.isIdle]

theorem getElem?_settle (hc : e.commits[id]? = some c) :
    (e.act (.settle id)).commits[id]? = some { c with phase := .idle } := by
  simp only [act, settle, getElem?_modify, if_true, hc, Option.map_some]

theorem getElem?_poll (hc : e.commits[id]? = some c) (hf : c.completed = false) (w : Waker) :
    (e.act (.poll id w)).commits[id]? = some (c.goto (.poll w) .top) := by
  simp only [act, poll, getElem?_modify, if_true, hc, Option.map_some, hf, if_false,
    Bool.false_eq_true]

theorem getElem?_runSync (hc : e.commits[id]? = some c) :
    (e.act (.runSync id)).commits[id]? = some (c.goto .sync .starting) := by
  simp only [act, runSync, getElem?_modify, if_true, hc, Option.map_some]

theorem getElem?_drop (hc : e.commits[id]? = some c) :
    (e.act (.drop id)).commits[id]? = some { c with suspended := none, held := false } := by
  simp only [act, Engine.drop, hc, getElem?_put, if_true, ← Commit.drop_fst c e.store]

theorem getElem?_commit {t : Tree β Ω} {E A : Ty β} {s : Option SchedulerId} :
    (e.act (.commit t E A s)).commits[e.nextCommit]? =
      some { tree := t, errorTy := E, valueTy := A, fiber := e.nextFiber, scheduler := s } := by
  simp only [act, commit, freshFiber, getElem?_put, if_true]

theorem drop_of_spent (hc : e.commits[id]? = some c) (hs : c.Spent) : e.drop id = e := by
  have hd : c.drop e.store = (c, e.store) := by
    obtain ⟨hg, -, hw⟩ := hs
    cases c
    cases hg
    cases hw
    rfl
  simp only [Engine.drop, hc, hd]
  exact put_self hc

theorem getElem?_of_isService {m : Move β Ω} (hm : m.isService) (hh : m.handles id = false) :
    (e.act m).commits[id]? = e.commits[id]? := by
  cases m with
  | poll k | runSync k | settle k =>
    have hk : k ≠ id := by simpa [Move.handles] using hh
    simp only [act, poll, runSync, settle, getElem?_modify, hk, if_false]
  | drop k =>
    have hk : k ≠ id := by simpa [Move.handles] using hh
    simp only [act, Engine.drop]
    cases e.commits[k]? with
    | none => rfl
    | some c => simp only [getElem?_put, hk, if_false]
  | wake w =>
    obtain ⟨_, _, h⟩ := e.wake_frame w
    simp only [act, h]
  | _ => cases hm

theorem Serves.call {e' : Engine β Ω} {sem : Semaphore} {ids : List CommitId} {l : Ledger}
    {m : Move β Ω} (hs : e.Serves ids sem l e') (hm : e'.admits m) (hserv : m.isService)
    (hid : id ∈ ids) (hh : ∀ k, m.handles k → k = id) : e.Serves ids sem l (e'.act m) :=
  .service hs hm hserv fun k hk => .inl (hh k hk ▸ hid)

theorem admits_settle {a : Answer β} (hc : e.commits[id]? = some c) (hp : c.phase = .answered a) :
    e.admits (.settle id) := by
  simp [admits, answer?, hc, hp]

theorem Missed.of_drop {sem : Semaphore} {n : Nat} (hc : e.commits[id]? = some c)
    (ha : c.Acquires sem n false) (hl : c.Listed id e.store) : (e.act (.drop id)).Missed id := by
  have hi := ha.still rfl
  have hx := getElem?_drop hc
  refine ⟨⟨_, hx, rfl, by rw [hi]; rfl, rfl⟩, ?_, fun d f hk => ?_⟩
  · cases ha.kept with
    | fresh hsig => simp [isDone, state?, hx, hsig]
    | done _ hv =>
      rw [hi] at hv
      cases hv
  · have hst : (e.act (.drop id)).store = (c.release e.store).2 := by
      simp only [Engine.act, Engine.drop, hc]
      rfl
    rw [hst] at hk
    exact hl.not_released (by rw [hi]; rfl) hk

end Engine

theorem Hold.still (g : Hold β) {e : Engine β Ω} {id : CommitId} {c : Commit β Ω}
    (h : g.running? e = none) (hc : e.commits[id]? = some c) (hs : g.stage = .acquiring id ∨
      (∃ a, g.stage = .releasing id a) ∨ g.stage = .holding ∧ g.work = .commit id) :
    c.phase.isBusy = false := by
  unfold running? at h
  rcases hs with hs | ⟨a, hs⟩ | ⟨hs, hw⟩
  all_goals
    simp only [*] at h
    cases hp : c.phase <;> simp_all [Phase.isBusy]

namespace Tenure

structure Passes (sem : Semaphore) (e e' : Engine β Ω) (t t' : Tenure β) : Prop where
  serves : ∃ l, e.Serves t.has sem l e' ∧ t'.ledger.Perm (l ++ t.ledger) ∧
    t'.has.Perm (l.map Prod.fst ++ t.has)
  semaphore : t'.hold.semaphore = t.hold.semaphore
  stands : t'.Stands sem e'
  works : t'.Works e'

variable {h : History β Ω} {e e₁ : Engine β Ω} {sem : Semaphore} {l₀ : Ledger} {n : Nat}
  {t : Tenure β} {id : CommitId}

theorem Stands.poll (ht : t.Stands sem e) (hw : t.Works e) (w : Waker) :
    t.Passes sem e e (t.become (t.hold.poll w)) := by
  have hbusy : (t.become (t.hold.poll w)).busy = true := rfl
  have hkeep : (t.become (t.hold.poll w)).acquisition = t.acquisition ∧
      (t.become (t.hold.poll w)).restitution = t.restitution := by
    cases ht <;> simp_all [become, Hold.poll]
  obtain ⟨hacq, hres⟩ := hkeep
  refine ⟨⟨[], .refl, ?_, ?_⟩, rfl, ?_, ?_⟩
  · simp only [ledger, hacq, hres]
    exact .refl _
  · simp only [has, own, hacq, hres]
    exact .refl _
  · cases ht with
    | fresh hs ha hr => exact .fresh hs (hacq.trans ha) (hres.trans hr)
    | acquiring hs ha hr hx hacq' hl =>
      exact .acquiring hs (hacq.trans ha) (hres.trans hr) hx
        ⟨hacq'.tree, hacq'.valueTy, hacq'.kept, hacq'.polled, fun hb => by rw [hbusy] at hb; cases hb⟩ hl
    | holding hs ha hr hd => exact .holding hs (hacq.trans ha) (hres.trans hr) hd
    | releasing hs ha hr hd _ hx hrel =>
      exact .releasing hs (hacq.trans ha) (hres.trans hr) hd hbusy hx hrel
    | returned hs ha hr hd hd' => exact .returned hs (hacq.trans ha) (hres.trans hr) hd hd'
    | missed hs hr hb => exact .missed hs (hres.trans hr) fun b hab => hb b (hacq.symm.trans hab)
  · intro w' hw'
    obtain ⟨x, hx, hexp⟩ := hw w' hw'
    refine ⟨x, hx, ?_⟩
    unfold Expects at hexp ⊢
    have hst : (t.become (t.hold.poll w)).hold.stage = t.hold.stage := rfl
    rw [hst, hbusy]
    cases hs : t.hold.stage with
    | holding =>
      rw [hs] at hexp
      exact ⟨hexp.1, by rintro ⟨⟩⟩
    | _ => simpa only [hs] using hexp

theorem Stands.giveBack (r : Run h e) (acc : e.Accounts sem n l₀) (hs : e.Serves t.has sem [] e₁)
    (hsem : t.hold.semaphore = sem) (hr : t.restitution = none) {b : CommitId}
    (ha : t.acquisition = some b) (hd : e.isDone b)
    (hw : ∀ w ∈ t.hold.work.commits, ∃ x, e₁.commits[w]? = some x ∧ x.Spent)
    {g : Hold β} (hg : g.answer = none) (hgs : g.semaphore = t.hold.semaphore)
    (hgp : g.permits = t.hold.permits) (hgw : g.work = t.hold.work) (a : HoldAnswer β) :
    t.Passes sem e (g.giveBack e₁ a).2 (t.become (g.giveBack e₁ a).1) := by
  obtain ⟨⟨h₁, r₁⟩, -⟩ := hs.kept r acc
  let m₁ : Move β Ω := .commit ((Errand.release t.hold.permits).tree sem) .never .unit none
  have he : (g.giveBack e₁ a).2 = (e₁.act m₁).act (.runSync e₁.nextCommit) := by
    subst hsem
    simp only [Hold.giveBack, Hold.restitution, hgs, hgp]
    rfl
  have hb : t.become (g.giveBack e₁ a).1 =
      { hold := { g with stage := .releasing e₁.nextCommit a }, acquisition := t.acquisition,
        restitution := some e₁.nextCommit } := rfl
  have hx := e₁.getElem?_commit (t := (Errand.release t.hold.permits).tree sem) (E := .never)
    (A := .unit) (s := none)
  have hfree : (e₁.act m₁).admits (.runSync e₁.nextCommit) := Engine.isFree_of hx rfl rfl
  have hserves : e.Serves t.has sem [(e₁.nextCommit, .release t.hold.permits)]
      ((e₁.act m₁).act (.runSync e₁.nextCommit)) := by
    refine .service (.commit _ hs) hfree rfl fun k hk => .inr ?_
    simp only [Move.handles, decide_eq_true_eq] at hk
    simp [hk]
  rw [he, hb]
  refine ⟨⟨_, hserves, ?_, ?_⟩, hgs, ?_, ?_⟩
  · simp only [ledger, ha, hr, hgp]
    exact .swap ..
  · simp only [has, own, ha, hr, hgw]
    exact .swap ..
  · refine .releasing rfl ha rfl ?_ ?_ (Engine.getElem?_runSync hx) ⟨?_, rfl, ?_, ?_⟩
    · rw [hserves.isDone r acc, hd]
    · simp [busy, hg]
    · rw [hgp]
      rfl
    · exact .fresh rfl rfl rfl (by rintro _ ⟨⟩)
    · exact .inl ⟨_, rfl⟩
  · intro w hwm
    rw [hgw] at hwm
    obtain ⟨x, hxw, hspent⟩ := hw w hwm
    obtain ⟨_, y, -, -, hy⟩ := Engine.moved (m := m₁) rfl hxw (r₁.tracked.ne_nextCommit hxw)
    have hy' := (Engine.spent_act r₁.tracked rfl hxw hspent hy).1
    have r₂ := r₁.next (m := m₁) rfl
    obtain ⟨_, z, -, -, hz⟩ := Engine.moved hfree hy (r₂.tracked.ne_nextCommit hy)
    exact ⟨z, hz, (Engine.spent_act r₂.tracked hfree hy hy' hz).1⟩

theorem Works.pass {t' : Tenure β} (hw : t.Works e) (hwork : t'.hold.work = t.hold.work)
    (same : ∀ w ∈ t.hold.work.commits, e₁.commits[w]? = e.commits[w]?)
    (hexp : ∀ x : Commit β Ω, t.Expects x → t'.Expects x) : t'.Works e₁ := by
  intro w hmem
  rw [hwork] at hmem
  obtain ⟨x, hx, h⟩ := hw w hmem
  exact ⟨x, (same w hmem).trans hx, hexp x h⟩

theorem Stands.turn_fresh (r : Run h e) (hw : t.Works e) (hsem : t.hold.semaphore = sem)
    (hs : t.hold.stage = .fresh) (ha : t.acquisition = none)
    (hr : t.restitution = none) (gates : Hold.Gates β) :
    t.Passes sem e (t.hold.advance gates e).2.2.1 (t.become (t.hold.advance gates e).1) := by
  subst hsem
  let m : Move β Ω := .commit ((Errand.acquire t.hold.permits).tree t.hold.semaphore) .never .unit none
  have he : (t.hold.advance gates e).2.2.1 = e.act m := by
    simp only [Hold.advance, hs]
    rfl
  have hg : (t.hold.advance gates e).1 = { t.hold with stage := .acquiring e.nextCommit } := by
    simp only [Hold.advance, hs]
    rfl
  have hx := e.getElem?_commit (t := (Errand.acquire t.hold.permits).tree t.hold.semaphore)
    (E := .never) (A := .unit) (s := none)
  rw [he, hg]
  refine ⟨⟨[(e.nextCommit, .acquire t.hold.permits)], .commit _ .refl, ?_, ?_⟩, rfl, ?_, ?_⟩
  · simp only [ledger, become, ha, hr]
    exact .refl _
  · simp only [has, own, become, ha, hr]
    exact .refl _
  · refine .acquiring rfl rfl hr hx
      ⟨rfl, rfl, .of_still rfl rfl rfl rfl, .of_still rfl rfl, fun _ => rfl⟩ ?_
    exact Engine.listed_new r
  · refine hw.pass rfl (fun w hmem => ?_) fun x hexp => ?_
    · obtain ⟨x, hx, -⟩ := hw w hmem
      have hne : e.nextCommit ≠ w := (r.tracked.ne_nextCommit hx).symm
      simp only [m, Engine.act, Engine.commit, Engine.freshFiber, Engine.getElem?_put, hne, if_false]
    · simpa only [Expects, hs, become] using hexp

theorem become_eq {g : Hold β} (ha : ∀ c, g.stage = .acquiring c → t.acquisition = some c)
    (hr : ∀ c a, g.stage = .releasing c a → t.restitution = some c) :
    t.become g = { t with hold := g } := by
  cases t
  cases hs : g.stage with
  | acquiring c =>
    simp only at ha
    simp only [become, hs, ha c hs]
  | releasing c a =>
    simp only at hr
    simp only [become, hs, hr c a hs]
  | _ => simp only [become, hs]

theorem mem_has (hc : id ∈ t.own) : id ∈ t.has := List.mem_append_left _ hc

theorem ne_of_own (hd : t.has.Nodup) (hc : id ∈ t.own) {w : CommitId}
    (hw : w ∈ t.hold.work.commits) : id ≠ w :=
  (List.nodup_append.1 hd).2.2 id hc w hw

section Acquiring

variable {c : CommitId} {x : Commit β Ω}

theorem Stands.ask (r : Run h e) (hw : t.Works e) (hd : t.has.Nodup) (hb : t.busy)
    (hs : t.hold.stage = .acquiring c) (ha : t.acquisition = some c) (hr : t.restitution = none)
    (hx : e.commits[c]? = some x) (hacq : x.Acquires sem t.hold.permits t.busy)
    (hl : x.Listed c e.store) (hp : x.phase = .idle) :
    t.Passes sem e (e.act (.poll c t.hold.caller)) t := by
  have hc : c ∈ t.own := by simp [own, ha]
  have hm : e.admits (.poll c t.hold.caller) := Engine.isFree_of hx hacq.polled.held hp
  obtain ⟨hsig, hf⟩ : x.signals.state = .running ∧ x.completed = false := by
    cases hacq.kept with
    | fresh hsig _ hf => exact ⟨hsig, hf⟩
    | done _ hv =>
      rw [hp] at hv
      cases hv
  have hx' := Engine.getElem?_poll hx hf t.hold.caller
  refine ⟨⟨[], Engine.Serves.refl.call hm rfl (mem_has hc) (by simp [Move.handles]), .refl _,
    .refl _⟩, rfl, ?_, ?_⟩
  · refine .acquiring hs ha hr hx' ⟨hacq.tree, hacq.valueTy, ?_, ⟨hacq.polled.held, ?_⟩, ?_⟩ ?_
    · exact .fresh hsig rfl hf (by rintro _ ⟨⟩)
    · rintro _ _ ⟨⟩
      exact ⟨_, rfl⟩
    · rw [hb]
      rintro ⟨⟩
    · exact Engine.listed_act r.tracked r.tidy hm (by rintro _ ⟨⟩) hx hl hx'
  · refine hw.pass rfl (fun w hwm => Engine.getElem?_of_isService rfl ?_) fun _ => id
    exact decide_eq_false (ne_of_own hd hc hwm)

theorem Stands.wait (r : Run h e) (hw : t.Works e) (hd : t.has.Nodup)
    (hs : t.hold.stage = .acquiring c) (ha : t.acquisition = some c) (hr : t.restitution = none)
    (hx : e.commits[c]? = some x) (hacq : x.Acquires sem t.hold.permits t.busy)
    (hl : x.Listed c e.store) {a : Answer β} (hp : x.phase = .answered a)
    (hn : x.phase.result? = none) :
    t.Passes sem e (e.act (.settle c)) { t with hold := { t.hold with answer := some .pending } } := by
  have hc : c ∈ t.own := by simp [own, ha]
  have hm := Engine.admits_settle hx hp
  have hx' := Engine.getElem?_settle hx
  refine ⟨⟨[], Engine.Serves.refl.call hm rfl (mem_has hc) (by simp [Move.handles]), .refl _,
    .refl _⟩, rfl, ?_, ?_⟩
  · refine .acquiring hs ha hr hx' ⟨hacq.tree, hacq.valueTy, ?_, .of_still hacq.polled.held rfl,
      fun _ => rfl⟩ ?_
    · cases hacq.kept with
      | fresh hsig _ hf => exact .of_still hsig rfl hf rfl
      | done _ hv =>
        rw [hn] at hv
        cases hv
    · exact Engine.listed_act r.tracked r.tidy hm (by rintro _ ⟨⟩) hx hl hx'
  · refine hw.pass rfl (fun w hwm => Engine.getElem?_of_isService rfl ?_) fun x hexp => ?_
    · exact decide_eq_false (ne_of_own hd hc hwm)
    · simpa only [Expects, hs] using hexp

theorem Stands.take (r : Run h e) (acc : e.Accounts sem n l₀) (hw : t.Works e) (hd : t.has.Nodup)
    (hs : t.hold.stage = .acquiring c) (ha : t.acquisition = some c) (hr : t.restitution = none)
    (hx : e.commits[c]? = some x) (hacq : x.Acquires sem t.hold.permits t.busy) {v : Any β}
    (hp : x.phase = .answered (.ready (.ok v))) :
    t.Passes sem e ((e.act (.settle c)).act (.drop c))
      { t with hold := { t.hold with stage := .holding } } := by
  have hc : c ∈ t.own := by simp [own, ha]
  have hm := Engine.admits_settle hx hp
  have hx' := Engine.getElem?_settle hx
  have hm' : (e.act (.settle c)).admits (.drop c) := Engine.isFree_of hx' hacq.polled.held rfl
  have hserves : e.Serves t.has sem [] ((e.act (.settle c)).act (.drop c)) :=
    (Engine.Serves.refl.call hm rfl (mem_has hc) (by simp [Move.handles])).call hm' rfl (mem_has hc)
      (by simp [Move.handles])
  have hdone : e.isDone c := by
    cases hacq.kept with
    | fresh _ hn =>
      rw [hp] at hn
      cases hn
    | done hsig => simp [Engine.isDone, Engine.state?, hx, hsig]
  refine ⟨⟨[], hserves, .refl _, .refl _⟩, rfl, ?_, ?_⟩
  · exact .holding rfl ha hr ((hserves.isDone r acc).trans hdone)
  · refine hw.pass rfl (fun w hwm => ?_) fun x hexp => ?_
    · have hne := decide_eq_false (ne_of_own hd hc hwm)
      refine (Engine.getElem?_of_isService rfl ?_).trans (Engine.getElem?_of_isService rfl ?_)
      · exact hne
      · exact hne
    · simp only [Expects, hs] at hexp ⊢
      exact ⟨.of_still hexp.1 (by rw [hexp.2]; rfl), fun _ => hexp.2⟩

theorem Stands.turn_acquiring (r : Run h e) (acc : e.Accounts sem n l₀) (hw : t.Works e)
    (hd : t.has.Nodup) (hb : t.busy) (hs : t.hold.stage = .acquiring c)
    (ha : t.acquisition = some c) (hr : t.restitution = none) (hx : e.commits[c]? = some x)
    (hacq : x.Acquires sem t.hold.permits t.busy) (hl : x.Listed c e.store)
    (hq : x.phase.isBusy = false) (gates : Hold.Gates β) :
    t.Passes sem e (t.hold.advance gates e).2.2.1 (t.become (t.hold.advance gates e).1) := by
  have hans := Engine.answer?_eq hx
  have same {g : Hold β} (hg : g.stage = .acquiring c) : t.become g = { t with hold := g } :=
    become_eq (fun k hk => by cases hg.symm.trans hk; exact ha) fun k a hk => by
      cases hg.symm.trans hk
  cases hp : x.phase with
  | busy call p =>
    rw [hp] at hq
    cases hq
  | idle =>
    have hadv : t.hold.advance gates e = (t.hold, gates, e.poll c t.hold.caller, none) := by
      simp only [Hold.advance, hs, hans, hp, Phase.answer?]
    rw [hadv, same]
    · exact ask r hw hd hb hs ha hr hx hacq hl hp
    · exact hs
  | answered a =>
    cases a with
    | pending | wouldSuspend =>
      have hadv : t.hold.advance gates e =
          ({ t.hold with answer := some .pending }, gates, e.settle c, none) := by
        simp only [Hold.advance, hs, hans, hp, Phase.answer?]
      rw [hadv, same]
      · exact wait r hw hd hs ha hr hx hacq hl hp (by rw [hp]; rfl)
      · exact hs
    | ready res =>
      cases res with
      | ok v =>
        have hadv : t.hold.advance gates e =
            ({ t.hold with stage := .holding }, gates, (e.settle c).drop c, none) := by
          simp only [Hold.advance, hs, hans, hp, Phase.answer?]
        rw [hadv, become_eq (by rintro _ ⟨⟩) (by rintro _ _ ⟨⟩)]
        exact take r acc hw hd hs ha hr hx hacq hp
      | error why =>
        cases hacq.kept with
        | fresh _ hn =>
          rw [hp] at hn
          cases hn
        | done _ hv =>
          rw [hp] at hv
          cases hv

end Acquiring

section Holding

variable {b : CommitId}

theorem Stands.attend (hd : e.isDone b) (hs : t.hold.stage = .holding) (ha : t.acquisition = some b)
    (hr : t.restitution = none) (r : Run h e) (acc : e.Accounts sem n l₀)
    (hserves : e.Serves t.has sem [] e₁) {a : Option (HoldAnswer β)}
    (hw : Works e₁ { t with hold := { t.hold with answer := a } }) :
    t.Passes sem e e₁ { t with hold := { t.hold with answer := a } } :=
  ⟨⟨[], hserves, .refl _, .refl _⟩, rfl, .holding hs ha hr ((hserves.isDone r acc).trans hd), hw⟩

theorem Stands.turn_gate (r : Run h e) (acc : e.Accounts sem n l₀)
    (hsem : t.hold.semaphore = sem) (hb : t.busy) (hs : t.hold.stage = .holding)
    (ha : t.acquisition = some b) (hr : t.restitution = none) (hd : e.isDone b) {g : GateId}
    (hwork : t.hold.work = .gate g) (gates : Hold.Gates β) :
    t.Passes sem e (t.hold.advance gates e).2.2.1 (t.become (t.hold.advance gates e).1) := by
  have hw {e : Engine β Ω} : ∀ w ∈ t.hold.work.commits, ∃ x, e.commits[w]? = some x ∧ x.Spent := by
    rw [hwork]
    exact nofun
  have hans : t.hold.answer = none := Option.isNone_iff_eq_none.1 hb
  have back (a : HoldAnswer β) :=
    giveBack r acc .refl hsem hr ha hd hw hans rfl rfl rfl a
  cases hv : ((gates[g]?).getD {}).value with
  | none =>
    have hadv : t.hold.advance gates e = ({ t.hold with answer := some .pending },
        gates.insert g { (gates[g]?).getD {} with
          waiting := ((gates[g]?).getD {}).waiting ++ [t.hold.caller] }, e, none) := by
      simp only [Hold.advance, hs, hwork, hv]
    rw [hadv, become_eq]
    · refine attend hd hs ha hr r acc .refl fun w hwm => ?_
      simp only [hwork] at hwm
      cases hwm
    · intro c hc
      cases hs.symm.trans hc
    · intro c a hc
      cases hs.symm.trans hc
  | some res =>
    cases res with
    | ok v =>
      have hadv : t.hold.advance gates e =
          ((t.hold.giveBack e (.value v)).1, gates, (t.hold.giveBack e (.value v)).2, none) := by
        simp only [Hold.advance, hs, hwork, hv]
      rw [hadv]
      exact back _
    | error p =>
      have hadv : t.hold.advance gates e =
          ((t.hold.giveBack e (.panicked p)).1, gates, (t.hold.giveBack e (.panicked p)).2, none) := by
        simp only [Hold.advance, hs, hwork, hv]
      rw [hadv]
      exact back _

theorem Stands.turn_work (r : Run h e) (acc : e.Accounts sem n l₀) (hw : t.Works e)
    (hsem : t.hold.semaphore = sem) (hb : t.busy) (hs : t.hold.stage = .holding)
    (ha : t.acquisition = some b) (hr : t.restitution = none) (hd : e.isDone b) {c : CommitId}
    (hwork : t.hold.work = .commit c) (hq : ∀ x, e.commits[c]? = some x → x.phase.isBusy = false)
    (gates : Hold.Gates β) :
    t.Passes sem e (t.hold.advance gates e).2.2.1 (t.become (t.hold.advance gates e).1) := by
  have hc : c ∈ t.hold.work.commits := by simp [hwork, Work.commits]
  have hc' : c ∈ t.has := List.mem_append_right _ hc
  have hans : t.hold.answer = none := Option.isNone_iff_eq_none.1 hb
  obtain ⟨x, hx, hexp⟩ := hw c hc
  simp only [Expects, hs] at hexp
  have hanswer := Engine.answer?_eq hx
  have same {g : Hold β} (hg : g.stage = .holding) : t.become g = { t with hold := g } :=
    become_eq (fun k hk => by cases hg.symm.trans hk) fun k a hk => by cases hg.symm.trans hk
  have only {e' : Engine β Ω} {g : Hold β} (hg : g.stage = .holding) (hgw : g.work = t.hold.work)
      {x' : Commit β Ω} (hx' : e'.commits[c]? = some x') (hp : x'.Polled)
      (hi : g.answer.isNone = false → x'.phase = .idle) : Works e' { t with hold := g } := by
    intro w hwm
    simp only [hgw, hwork, Work.commits, List.mem_singleton] at hwm
    subst hwm
    exact ⟨x', hx', by simpa only [Expects, hg] using ⟨hp, hi⟩⟩
  cases hp : x.phase with
  | busy call p =>
    have := hq x hx
    rw [hp] at this
    cases this
  | idle =>
    have hm : e.admits (.poll c t.hold.caller) := Engine.isFree_of hx hexp.1.held hp
    have hserves : e.Serves t.has sem [] (e.act (.poll c t.hold.caller)) :=
      Engine.Serves.refl.call hm rfl hc' (by simp [Move.handles])
    have hadv : t.hold.advance gates e = (t.hold, gates, e.poll c t.hold.caller, none) := by
      simp only [Hold.advance, hs, hwork, hanswer, hp, Phase.answer?]
    have hx' : ∃ x', (e.act (.poll c t.hold.caller)).commits[c]? = some x' ∧ x'.Polled := by
      simp only [Engine.act, Engine.poll, Engine.getElem?_modify, if_true, hx, Option.map_some]
      refine ⟨_, rfl, ?_⟩
      split
      · exact .of_still hexp.1.held rfl
      · refine ⟨hexp.1.held, ?_⟩
        rintro _ _ ⟨⟩
        exact ⟨_, rfl⟩
    obtain ⟨x', hx', hpol⟩ := hx'
    rw [hadv, same hs]
    refine ⟨⟨[], hserves, .refl _, .refl _⟩, rfl, ?_, ?_⟩
    · exact .holding hs ha hr ((hserves.isDone r acc).trans hd)
    · exact only hs rfl hx' hpol (by rw [hans]; rintro ⟨⟩)
  | answered a =>
    have hm := Engine.admits_settle hx hp
    have hx' := Engine.getElem?_settle hx
    have hserves : e.Serves t.has sem [] (e.act (.settle c)) :=
      Engine.Serves.refl.call hm rfl hc' (by simp [Move.handles])
    cases a with
    | pending | wouldSuspend =>
      have hadv : t.hold.advance gates e =
          ({ t.hold with answer := some .pending }, gates, e.settle c, none) := by
        simp only [Hold.advance, hs, hwork, hanswer, hp, Phase.answer?]
      rw [hadv, same]
      · exact attend hd hs ha hr r acc hserves
          (only hs rfl hx' (.of_still hexp.1.held rfl) fun _ => rfl)
      · exact hs
    | ready res =>
      have hm' : (e.act (.settle c)).admits (.drop c) := Engine.isFree_of hx' hexp.1.held rfl
      have hadv : t.hold.advance gates e =
          ((t.hold.giveBack ((e.act (.settle c)).act (.drop c)) (.result res)).1, gates,
            (t.hold.giveBack ((e.act (.settle c)).act (.drop c)) (.result res)).2, none) := by
        simp only [Hold.advance, hs, hwork, hanswer, hp, Phase.answer?]
        rfl
      rw [hadv]
      refine giveBack r acc (hserves.call hm' rfl hc' (by simp [Move.handles])) hsem hr ha hd ?_ hans rfl
        rfl rfl _
      intro w hwm
      simp only [hwork, Work.commits, List.mem_singleton] at hwm
      subst hwm
      exact ⟨_, Engine.getElem?_drop hx', rfl, rfl, rfl⟩

end Holding

theorem Stands.turn_releasing (r : Run h e) (acc : e.Accounts sem n l₀) (hw : t.Works e)
    (hd : t.has.Nodup) {b c : CommitId} {a : HoldAnswer β} {x : Commit β Ω}
    (hs : t.hold.stage = .releasing c a) (ha : t.acquisition = some b)
    (hr : t.restitution = some c) (hdone : e.isDone b) (hx : e.commits[c]? = some x)
    (hrel : x.Releases sem t.hold.permits) (hq : x.phase.isBusy = false) (gates : Hold.Gates β) :
    t.Passes sem e (t.hold.advance gates e).2.2.1 (t.become (t.hold.advance gates e).1) := by
  obtain ⟨p, hp⟩ | ⟨hspent, res, hp⟩ := hrel.synced
  · rw [hp] at hq
    cases hq
  · have hc : c ∈ t.own := by simp [own, hr]
    have hm := Engine.admits_settle hx hp
    have hx' := Engine.getElem?_settle hx
    have hserves : e.Serves t.has sem [] (e.act (.settle c)) :=
      Engine.Serves.refl.call hm rfl (mem_has hc) (by simp [Move.handles])
    have hadv : t.hold.advance gates e =
        ({ t.hold with stage := .over, answer := some a }, gates, e.act (.settle c),
          t.hold.complaint (.ready res)) := by
      simp only [Hold.advance, hs, Engine.answer?_eq hx, hp, Phase.answer?]
      have hdrop := Engine.drop_of_spent (e := e.settle c) hx' ⟨hspent.gone, rfl, hspent.waits⟩
      rw [hdrop]
      rfl
    have hdone' : e.isDone c := by
      cases hrel.kept with
      | fresh _ hn =>
        rw [hp] at hn
        cases hn
      | done hsig => simp [Engine.isDone, Engine.state?, hx, hsig]
    rw [hadv, become_eq (by rintro _ ⟨⟩) (by rintro _ _ ⟨⟩)]
    refine ⟨⟨[], hserves, .refl _, .refl _⟩, rfl, ?_, ?_⟩
    · exact .returned rfl ha hr ((hserves.isDone r acc).trans hdone)
        ((hserves.isDone r acc).trans hdone')
    · refine hw.pass rfl (fun w hwm => Engine.getElem?_of_isService rfl ?_) fun x hexp => ?_
      · exact decide_eq_false (ne_of_own hd hc hwm)
      · simpa only [Expects, hs] using hexp

theorem Stands.turn (ht : t.Stands sem e) (r : Run h e) (acc : e.Accounts sem n l₀) (hw : t.Works e)
    (hd : t.has.Nodup) (hsem : t.hold.semaphore = sem) (hb : t.busy)
    (hq : t.hold.running? e = none) (gates : Hold.Gates β) :
    t.Passes sem e (t.hold.advance gates e).2.2.1 (t.become (t.hold.advance gates e).1) := by
  have still (hs : t.hold.stage = .over) (ht' : t.Stands sem e) :
      t.Passes sem e (t.hold.advance gates e).2.2.1 (t.become (t.hold.advance gates e).1) := by
    have hadv : t.hold.advance gates e = (t.hold, gates, e, none) := by simp only [Hold.advance, hs]
    have hself : t.become t.hold = t := by
      refine become_eq (fun c hc => ?_) fun c a hc => ?_
      · cases hs.symm.trans hc
      · cases hs.symm.trans hc
    rw [hadv, hself]
    exact ⟨⟨[], .refl, .refl _, .refl _⟩, rfl, ht', hw⟩
  cases ht with
  | fresh hs ha hr => exact turn_fresh r hw hsem hs ha hr gates
  | acquiring hs ha hr hx hacq hl =>
    exact turn_acquiring r acc hw hd hb hs ha hr hx hacq hl (t.hold.still hq hx (.inl hs)) gates
  | holding hs ha hr hdone =>
    cases hwork : t.hold.work with
    | gate g => exact turn_gate r acc hsem hb hs ha hr hdone hwork gates
    | commit c =>
      exact turn_work r acc hw hsem hb hs ha hr hdone hwork
        (fun x hx => t.hold.still hq hx (.inr (.inr ⟨hs, hwork⟩))) gates
  | releasing hs ha hr hdone _ hx hrel =>
    exact turn_releasing r acc hw hd hs ha hr hdone hx hrel
      (t.hold.still hq hx (.inr (.inl ⟨_, hs⟩))) gates
  | returned hs ha hr hdone hdone' => exact still hs (.returned hs ha hr hdone hdone')
  | missed hs hr hm => exact still hs (.missed hs hr hm)

theorem Works.abandon (hw : t.Works e) (hb : t.busy = false)
    (hs : ∀ c a, t.hold.stage ≠ .releasing c a) :
    (∀ w ∈ t.hold.work.commits, ∃ x, (t.hold.abandonWork e).commits[w]? = some x ∧ x.Spent) ∧
      (t.hold.abandonWork e = e ∨ t.hold.stage ≠ .over ∧ ∃ w ∈ t.hold.work.commits,
        e.admits (.drop w) ∧ t.hold.abandonWork e = e.act (.drop w)) := by
  cases hwork : t.hold.work with
  | gate g => exact ⟨by rintro _ ⟨⟩, .inl (by simp only [Hold.abandonWork, hwork])⟩
  | commit c =>
    have hc : c ∈ t.hold.work.commits := by simp [hwork, Work.commits]
    obtain ⟨x, hx, hexp⟩ := hw c hc
    have hdrop : t.hold.abandonWork e = e.drop c := by simp only [Hold.abandonWork, hwork]
    rw [hdrop]
    have freed (hh : x.held) (hi : x.phase = .idle) (hn : t.hold.stage ≠ .over) :
        (∀ w ∈ (Work.commit c).commits, ∃ x, (e.drop c).commits[w]? = some x ∧ x.Spent) ∧
          (e.drop c = e ∨ t.hold.stage ≠ .over ∧ ∃ w ∈ (Work.commit c).commits,
            e.admits (.drop w) ∧ e.drop c = e.act (.drop w)) := by
      refine ⟨fun w hwm => ?_, .inr ⟨hn, c, List.mem_cons_self, Engine.isFree_of hx hh hi, rfl⟩⟩
      rw [List.eq_of_mem_singleton hwm]
      exact ⟨_, Engine.getElem?_drop hx, rfl, by rw [hi]; rfl, rfl⟩
    cases hst : t.hold.stage with
    | fresh | acquiring =>
      simp only [Expects, hst] at hexp
      rw [← hst]
      exact freed hexp.1 hexp.2 (by rw [hst]; rintro ⟨⟩)
    | holding =>
      simp only [Expects, hst] at hexp
      rw [← hst]
      exact freed hexp.1.held (hexp.2 hb) (by rw [hst]; rintro ⟨⟩)
    | releasing k a => exact absurd hst (hs k a)
    | _ =>
      simp only [Expects, hst] at hexp
      rw [Engine.drop_of_spent hx hexp]
      refine ⟨fun w hwm => ?_, .inl rfl⟩
      rw [List.eq_of_mem_singleton hwm]
      exact ⟨x, hx, hexp⟩

theorem Stands.drop (ht : t.Stands sem e) (r : Run h e) (acc : e.Accounts sem n l₀) (hw : t.Works e)
    (hd : t.has.Nodup) (hsem : t.hold.semaphore = sem) (hb : t.busy = false) :
    t.Passes sem e (t.hold.drop e).2 (t.become (t.hold.drop e).1) := by
  have hn (c : CommitId) (a : HoldAnswer β) : t.hold.stage ≠ .releasing c a := by
    intro hs
    cases ht with
    | releasing _ _ _ _ hb' =>
      rw [hb] at hb'
      cases hb'
    | fresh hs' | acquiring hs' | holding hs' | returned hs' | missed hs' => cases hs.symm.trans hs'
  obtain ⟨hspent, habandon⟩ := hw.abandon hb hn
  have hserves : e.Serves t.has sem [] (t.hold.abandonWork e) := by
    rcases habandon with heq | ⟨-, w, hwm, hm, heq⟩
    · rw [heq]
      exact .refl
    · rw [heq]
      exact Engine.Serves.refl.call hm rfl (List.mem_append_right _ hwm) (by simp [Move.handles])
  -- Nothing more happens to a hold that is over.
  have ended (hs : t.hold.stage = .over) (ht' : Stands sem e
      { t with hold := { t.hold with stage := .over, answer := some .dropped } }) :
      t.Passes sem e (t.hold.drop e).2 (t.become (t.hold.drop e).1) := by
    obtain heq | ⟨hne, -⟩ := habandon
    · have hadv : t.hold.drop e = ({ t.hold with stage := .over, answer := some .dropped }, e) := by
        simp only [Hold.drop, hs, heq]
      rw [heq] at hspent
      rw [hadv, become_eq (by rintro _ ⟨⟩) (by rintro _ _ ⟨⟩)]
      exact ⟨⟨[], .refl, .refl _, .refl _⟩, rfl, ht', hspent⟩
    · exact absurd hs hne
  cases ht with
  | fresh hs ha hr =>
    have hadv : t.hold.drop e =
        ({ t.hold with stage := .over, answer := some .dropped }, t.hold.abandonWork e) := by
      simp only [Hold.drop, hs]
    rw [hadv, become_eq (by rintro _ ⟨⟩) (by rintro _ _ ⟨⟩)]
    refine ⟨⟨[], hserves, .refl _, .refl _⟩, rfl, .missed rfl hr fun b hab => ?_, hspent⟩
    cases ha.symm.trans hab
  | @acquiring c x hs ha hr hx hacq hl =>
    have hc : c ∈ t.own := by simp [own, ha]
    have hadv : t.hold.drop e =
        ({ t.hold with stage := .over, answer := some .dropped },
          (t.hold.abandonWork e).act (.drop c)) := by
      simp only [Hold.drop, hs]
      rfl
    obtain ⟨hx₁, hl₁⟩ : (t.hold.abandonWork e).commits[c]? = some x ∧
        x.Listed c (t.hold.abandonWork e).store := by
      rcases habandon with heq | ⟨-, w, hwm, hm, heq⟩
      · rw [heq]
        exact ⟨hx, hl⟩
      · have hx₁ : (e.act (.drop w)).commits[c]? = some x := by
          rw [Engine.getElem?_of_isService rfl, hx]
          exact decide_eq_false (ne_of_own hd hc hwm).symm
        rw [heq]
        exact ⟨hx₁, Engine.listed_act r.tracked r.tidy hm (by rintro _ ⟨⟩) hx hl hx₁⟩
    have hacq' : x.Acquires sem t.hold.permits false := hb ▸ hacq
    have hm' : (t.hold.abandonWork e).admits (.drop c) :=
      Engine.isFree_of hx₁ hacq'.polled.held (hacq'.still rfl)
    rw [hadv, become_eq (by rintro _ ⟨⟩) (by rintro _ _ ⟨⟩)]
    refine ⟨⟨[], hserves.call hm' rfl (mem_has hc) (by simp [Move.handles]), .refl _, .refl _⟩, rfl,
      .missed rfl hr fun b hab => ?_, fun w hwm => ?_⟩
    · cases ha.symm.trans hab
      exact .of_drop hx₁ hacq' hl₁
    · obtain ⟨y, hy, hsp⟩ := hspent w hwm
      refine ⟨y, ?_, hsp⟩
      rw [Engine.getElem?_of_isService rfl, hy]
      exact decide_eq_false (ne_of_own hd hc hwm)
  | holding hs ha hr hdone =>
    have hadv : t.hold.drop e =
        { t.hold with answer := none }.giveBack (t.hold.abandonWork e) .dropped := by
      simp only [Hold.drop, hs]
    rw [hadv]
    exact giveBack (g := { t.hold with answer := none }) r acc hserves hsem hr ha hdone hspent rfl rfl
      rfl rfl _
  | releasing hs => exact absurd hs (hn _ _)
  | returned hs ha hr hdone hdone' => exact ended hs (.returned rfl ha hr hdone hdone')
  | missed hs hr hm => exact ended hs (.missed rfl hr hm)

end Tenure

end TransactionalMemory
