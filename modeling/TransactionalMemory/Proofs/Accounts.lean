import TransactionalMemory.Proofs.Exclusion
import TransactionalMemory.Proofs.Permits
import TransactionalMemory.Proofs.Serializability
import TransactionalMemory.Proofs.Writes

namespace TransactionalMemory

variable {β : Type} [Universe β] {Ω : Type}

namespace Commit

variable {id : CommitId} {c c' : Commit β Ω} {s s' : Store β} {ω : Ω} {call : Call} {p : Point β Ω}
  {woken : List CommitId}

theorem Transition.published_of_done (h : c.Transition id s ω call p c' s' woken)
    (hr : c.signals.state ≠ .done) (hd : c'.signals.state = .done) :
    ∃ m r w, p = .running m ∧ c'.phase = .busy call (.published r w) := by
  cases h with
  | conclude | publish => exact ⟨_, _, _, rfl, rfl⟩
  | leave | finish =>
    rw [finish_fst] at hd
    exact absurd hd hr
  | refuse =>
    rw [drop_fst] at hd
    exact absurd hd hr
  | stop | stall | resume | sleep | begin | giveUp | attempt | launch | step | park | rerun | discard
  | lose | skip | tell | wake | rest | stir => exact absurd hd hr

end Commit

namespace Engine

variable {e : Engine β Ω} {m : Move β Ω} {id k : CommitId} {c c' : Commit β Ω}

theorem tree_act (he : e.Tracked) (hm : e.admits m) (hc : e.commits[id]? = some c)
    (hc' : (e.act m).commits[id]? = some c') : c'.tree = c.tree := by
  obtain ⟨b, d, hmv, hd, h⟩ := moved hm hc (he.ne_nextCommit hc)
  cases hc'.symm.trans h
  obtain ⟨g, rfl, -⟩ := hd.frame
  exact hmv.frame.1

theorem turn_of_finishes (he : e.Tracked) (hm : e.admits m) (hf : finishes id (e, m))
    (hc : e.commits[id]? = some c) : m = .advance id ∧
      ∃ call x r w b woken, c.phase = .busy call (.running x) ∧
        c.Transition id e.store e.world call (.running x) b (e.act (.advance id)).store woken ∧
        b.phase = .busy call (.published r w) := by
  obtain ⟨b, d, hmv, hd, h⟩ := moved hm hc (he.ne_nextCommit hc)
  have hs := state?_eq .calm hc
  have hs' := state?_eq hd h
  simp only [finishes, Bool.and_eq_true, decide_eq_true_eq, hs, hs', ne_eq,
    Option.some.injEq] at hf
  obtain ⟨hr, hdone⟩ := hf
  cases hmv with
  | keep | setFiber | setScheduler | setWatched | poll | refuse | runSync | settle =>
    exact absurd hdone hr
  | interrupt => cases hdone
  | drop =>
    rw [Commit.drop_fst] at hdone
    exact absurd hdone hr
  | turn hp ht =>
    obtain ⟨x, r, w, rfl, hb⟩ := ht.published_of_done hr hdone
    exact ⟨rfl, _, x, r, w, b, _, hp, ht, hb⟩

theorem exists_of_finishes (he : e.Tracked) (hm : e.admits m) (hf : finishes id (e, m)) :
    ∃ c, e.commits[id]? = some c := by
  cases Engine.shift id he hm with
  | finish _ _ _ hr =>
    obtain ⟨c, hc, -⟩ := Option.map_eq_some_iff.1 hr
    exact ⟨c, hc⟩
  | keep _ hn | new _ hn | interrupt _ hn => exact absurd (hn.symm.trans hf) (by simp)

end Engine

section

variable {h : History β Ω} {e : Engine β Ω} {m : Move β Ω} {id : CommitId} {c : Commit β Ω}
  {sem : Semaphore} {d : CellId}

theorem Run.landed_of_finishes (r : Run h e) (hm : e.admits m) (hf : Engine.finishes id (e, m))
    (hc : e.commits[id]? = some c) : ∃ x o, c.phase.attempt? = some x ∧ x.outcome? = some o ∧
      o ≠ .retry ∧ x.journal.Current e.store ∧
      c.tree.Evaluates c.fiber .unit {} (h.scenes id) o x.journal ∧
      ∀ d, (e.act m).store.value d = x.journal.landed e.store d := by
  obtain ⟨rfl, call, x, res, w, b, woken, hp, ht, hb⟩ :=
    Engine.turn_of_finishes r.tracked hm hf hc
  obtain ⟨o, ho, hres, hv, hval⟩ := ht.published hb
  have hx : c.phase.attempt? = some x := by rw [hp]; rfl
  refine ⟨x, o, hx, ho, ?_, (r.tracked.known_attempt hc hx).current_of_isValid hv, r.evaluates hc hx ho,
    hval⟩
  rintro rfl
  cases hres

theorem Run.left_of_finishes (r : Run h e) (hm : e.admits m) (hf : Engine.finishes id (e, m))
    (hc : e.commits[id]? = some c) {a : Errand} (ht : c.tree = a.tree sem) {v : Nat}
    (hv : e.store.value sem.cell = ⟨.nat, v⟩) :
    (a.outcome v : Outcome β) ≠ .retry ∧ (e.act m).store.value sem.cell = ⟨.nat, a.left v⟩ := by
  obtain ⟨x, o, -, -, hn, hcur, hev, hval⟩ := r.landed_of_finishes hm hf hc
  rw [ht] at hev
  obtain ⟨y, hy, hspec⟩ := hev.of_errand
  have hy' : y.expected.value = e.store.value sem.cell :=
    congrArg Version.value (hcur sem.cell y hy)
  obtain ⟨rfl, hleft⟩ := hspec v (hy'.trans hv)
  refine ⟨hn, ?_⟩
  rw [hval, Journal.landed, hy, Option.bind_some, ← hy']
  exact hleft

theorem Run.value_of_leaves (r : Run h e) (hm : e.admits m) (hf : Engine.finishes id (e, m))
    (hc : e.commits[id]? = some c) (ht : c.tree.Leaves d) :
    (e.act m).store.value d = e.store.value d := by
  obtain ⟨x, o, -, -, -, -, hev, hval⟩ := r.landed_of_finishes hm hf hc
  have hj : x.journal.Leaves d := hev.leaves ht (by intro x hx; simp at hx)
  rw [hval, Journal.landed]
  cases hx : x.journal.entries[d]? with
  | none => rfl
  | some y =>
    rw [Option.bind_some, hj y hx]
    rfl

theorem Run.version_of_not_finishes (r : Run h e) (hm : e.admits m)
    (hn : ∀ id, Engine.finishes id (e, m) = false) (hd : d ∈ e.store.cells) :
    (e.act m).store.version d = e.store.version d := by
  refine Classical.byContradiction fun hv => ?_
  obtain ⟨k, -, -, -, -, -, rfl, -⟩ := r.news_of_version hm hd hv
  have hp : Engine.Publishes k (e, .advance k) := ⟨rfl, d, hd, hv⟩
  have hf := (r.next hm).finishes_of_publishes List.mem_cons_self hp
  simp [hn k] at hf

end

abbrev Ledger := List (CommitId × Errand)

def Engine.isDone (e : Engine β Ω) (id : CommitId) : Bool := e.state? id = some .done

namespace Ledger

def total (w : Errand → Nat) (e : Engine β Ω) : Ledger → Nat
  | [] => 0
  | p :: l => (if e.isDone p.1 then w p.2 else 0) + total w e l

def taken (l : Ledger) (e : Engine β Ω) : Nat := l.total Errand.taken e

def given (l : Ledger) (e : Engine β Ω) : Nat := l.total Errand.given e

def overflows (l : Ledger) (sem : Semaphore) (x : Engine β Ω × Move β Ω) : Bool :=
  l.any fun p => Engine.finishes p.1 x &&
    ((x.1.store.value sem.cell).as .nat).any fun (v : Nat) => p.2.overflows v

variable {w : Errand → Nat} {l l' : Ledger} {e e' : Engine β Ω}

theorem total_append : (l ++ l').total w e = l.total w e + l'.total w e := by
  induction l with
  | nil => simp [total]
  | cons p l ih => simp [total, ih, Nat.add_assoc]

theorem total_perm (h : l.Perm l') : l.total w e = l'.total w e := by
  induction h with
  | nil => rfl
  | cons p _ ih => simp only [total, ih]
  | swap p q l => simp only [total, Nat.add_left_comm]
  | trans _ _ ih ih' => exact ih.trans ih'

theorem total_congr (h : ∀ p ∈ l, e'.isDone p.1 = e.isDone p.1) : l.total w e' = l.total w e := by
  induction l with
  | nil => rfl
  | cons p l ih =>
    obtain ⟨hp, hl⟩ := List.forall_mem_cons.1 h
    simp only [total, hp, ih hl]

theorem total_entered (hl : (l.map Prod.fst).Nodup) {k : CommitId} {a : Errand} (hk : (k, a) ∈ l)
    (hn : e.isDone k = false) (hd : e'.isDone k)
    (h : ∀ p ∈ l, p.1 ≠ k → e'.isDone p.1 = e.isDone p.1) :
    l.total w e' = l.total w e + w a := by
  induction l with
  | nil => cases hk
  | cons q l ih =>
    rw [List.map_cons, List.nodup_cons] at hl
    obtain ⟨hq, hrest⟩ := List.forall_mem_cons.1 h
    rcases List.mem_cons.1 hk with rfl | hk
    · have same : total w e' l = total w e l := total_congr fun p hp => hrest p hp fun heq => by
        have hmem : p.1 ∈ l.map Prod.fst := List.mem_map_of_mem hp
        exact hl.1 (heq ▸ hmem)
      simp only [total, hn, hd, if_true, if_false, Bool.false_eq_true, same]
      omega
    · have hmem : k ∈ l.map Prod.fst := List.mem_map_of_mem hk
      have hne : q.1 ≠ k := fun heq => hl.1 (heq ▸ hmem)
      simp only [total, hq hne, ih hl.2 hk hrest]
      omega

end Ledger

structure Engine.Accounts (e : Engine β Ω) (sem : Semaphore) (n : Nat) (l : Ledger) : Prop where
  cell : sem.cell ∈ e.store.cells
  distinct : (l.map Prod.fst).Nodup
  listed : ∀ p ∈ l, ∃ c, e.commits[p.1]? = some c ∧ c.tree = p.2.tree sem
  others : ∀ id c, e.commits[id]? = some c → id ∈ l.map Prod.fst ∨ c.tree.Leaves sem.cell
  balance : ∃ v : Nat, e.store.value sem.cell = ⟨.nat, v⟩ ∧ v + l.taken e = n + l.given e

namespace Engine

variable {h : History β Ω} {e : Engine β Ω} {m : Move β Ω} {id k : CommitId} {c : Commit β Ω}
  {sem : Semaphore} {n : Nat} {l : Ledger} {a : Errand}

theorem isDone_act (he : e.Tracked) (hm : e.admits m) :
    (e.act m).isDone id = (e.isDone id || finishes id (e, m)) := by
  unfold isDone
  cases shift id he hm with
  | keep _ hf hs =>
    simp only at hs
    simp [hf, hs]
  | new _ hf hs hs' =>
    simp only at hs hs'
    simp [hf, hs, hs']
  | interrupt _ hf hs hs' =>
    simp only at hs hs'
    simp [hf, hs, hs']
  | finish _ _ hf hs hs' =>
    simp only at hs hs'
    simp [hf, hs, hs']

theorem isDone_of_finishes (hf : finishes id (e, m)) : e.isDone id = false := by
  simp only [finishes, Bool.and_eq_true, decide_eq_true_eq] at hf
  simpa [isDone] using hf.1

theorem finishes_unique (he : e.Tracked) (hm : e.admits m) (hf : finishes k (e, m))
    (hf' : finishes id (e, m)) : id = k := by
  obtain ⟨c, hc⟩ := exists_of_finishes he hm hf
  obtain ⟨d, hd⟩ := exists_of_finishes he hm hf'
  have h := (turn_of_finishes he hm hf hc).1
  have h' := (turn_of_finishes he hm hf' hd).1
  rw [h] at h'
  exact (Move.advance.inj h').symm

theorem Accounts.exists (hk : e.Accounts sem n l) (hid : (id, a) ∈ l) :
    ∃ c, e.commits[id]? = some c ∧ c.tree = a.tree sem := hk.listed _ hid

theorem Accounts.perm (hk : e.Accounts sem n l) {l' : Ledger} (h : l'.Perm l) :
    e.Accounts sem n l' where
  cell := hk.cell
  distinct := (h.map Prod.fst).nodup_iff.2 hk.distinct
  listed p hp := hk.listed p (h.mem_iff.1 hp)
  others id c hc := (hk.others id c hc).imp_left (h.map Prod.fst).mem_iff.2
  balance := by
    rw [Ledger.taken, Ledger.given, Ledger.total_perm h, Ledger.total_perm h]
    exact hk.balance

theorem Accounts.notMem_nextCommit (hk : e.Accounts sem n l) (he : e.Tracked) :
    e.nextCommit ∉ l.map Prod.fst := by
  intro hmem
  obtain ⟨p, hp, hn⟩ := List.mem_map.1 hmem
  obtain ⟨c, hc, -⟩ := hk.listed p hp
  exact he.ne_nextCommit hc hn

theorem Accounts.balance_act (hk : e.Accounts sem n l) (r : Run h e) (hm : e.admits m)
    (hroom : l.overflows sem (e, m) = false) :
    ∃ v : Nat, (e.act m).store.value sem.cell = ⟨.nat, v⟩ ∧
      v + l.taken (e.act m) = n + l.given (e.act m) := by
  have he := r.tracked
  obtain ⟨v, hv, hb⟩ := hk.balance
  by_cases hfin : ∃ k, finishes k (e, m)
  · obtain ⟨k, hf⟩ := hfin
    obtain ⟨c, hc⟩ := exists_of_finishes he hm hf
    -- Whoever else is done was done before.
    have same (id : CommitId) (hne : id ≠ k) : (e.act m).isDone id = e.isDone id := by
      rw [isDone_act he hm, Bool.eq_false_iff.2 fun hf' => hne (finishes_unique he hm hf hf'),
        Bool.or_false]
    by_cases hmem : k ∈ l.map Prod.fst
    · obtain ⟨⟨k, a⟩, hp, rfl⟩ := List.mem_map.1 hmem
      obtain ⟨c', hc', htree⟩ := hk.exists hp
      cases hc.symm.trans hc'
      obtain ⟨hn, hleft⟩ := r.left_of_finishes hm hf hc htree hv
      have hfit : a.overflows v = false := by
        have := List.any_eq_false.1 hroom _ hp
        simp only [hv, hf, Bool.true_and, Bool.not_eq_true] at this
        exact this
      have entered (w : Errand → Nat) : l.total w (e.act m) = l.total w e + w a :=
        Ledger.total_entered hk.distinct hp (isDone_of_finishes hf)
          (by rw [isDone_act he hm, hf, Bool.or_true]) fun p _ => same p.1
      have := (Errand.outcome_eq_unit hn hfit).2
      refine ⟨a.left v, hleft, ?_⟩
      unfold Ledger.taken Ledger.given at hb ⊢
      rw [entered, entered]
      omega
    · have hleaves := (hk.others k c hc).resolve_left hmem
      have same' : ∀ p ∈ l, (e.act m).isDone p.1 = e.isDone p.1 := fun p hp =>
        same p.1 fun heq => hmem (heq ▸ List.mem_map_of_mem hp)
      refine ⟨v, (r.value_of_leaves hm hf hc hleaves).trans hv, ?_⟩
      rw [Ledger.taken, Ledger.given, Ledger.total_congr same', Ledger.total_congr same']
      exact hb
  · have hn (id : CommitId) : finishes id (e, m) = false :=
      Bool.eq_false_iff.2 fun hf => hfin ⟨id, hf⟩
    have same : ∀ p ∈ l, (e.act m).isDone p.1 = e.isDone p.1 := fun p _ => by
      rw [isDone_act he hm, hn, Bool.or_false]
    refine ⟨v, (congrArg Version.value (r.version_of_not_finishes hm hn hk.cell)).trans hv, ?_⟩
    rw [Ledger.taken, Ledger.given, Ledger.total_congr same, Ledger.total_congr same]
    exact hb

theorem Accounts.listed_act (hk : e.Accounts sem n l) (he : e.Tracked) (hm : e.admits m) :
    ∀ p ∈ l, ∃ c, (e.act m).commits[p.1]? = some c ∧ c.tree = p.2.tree sem := by
  intro p hp
  obtain ⟨c, hc, ht⟩ := hk.listed p hp
  obtain ⟨_, d, -, -, hd⟩ := moved hm hc (he.ne_nextCommit hc)
  exact ⟨d, hd, (tree_act he hm hc hd).trans ht⟩

theorem Accounts.act (hk : e.Accounts sem n l) (r : Run h e) (hm : e.admits m)
    (hnew : ∀ t E A s, m = .commit t E A s → t.Leaves sem.cell)
    (hroom : l.overflows sem (e, m) = false) : (e.act m).Accounts sem n l where
  cell := ((reshaped hm).later r.tracked).cells _ hk.cell
  distinct := hk.distinct
  listed := hk.listed_act r.tracked hm
  others := by
    intro id c hc
    cases hd : e.commits[id]? with
    | none =>
      obtain ⟨t, E, A, s, rfl, -, rfl⟩ := fresh_of_act hm hd hc
      exact .inr (hnew t E A s rfl)
    | some d =>
      rw [tree_act r.tracked hm hd hc]
      exact hk.others id d hd
  balance := hk.balance_act r hm hroom

theorem Accounts.enter (hk : e.Accounts sem n l) (r : Run h e) {E A : Ty β}
    {s : Option SchedulerId} :
    (e.act (.commit (a.tree sem) E A s)).Accounts sem n ((e.nextCommit, a) :: l) := by
  have he := r.tracked
  have hm : e.admits (.commit (a.tree sem) E A s) := rfl
  have hc : (e.act (.commit (a.tree sem) E A s)).commits[e.nextCommit]? =
      some { tree := a.tree sem, errorTy := E, valueTy := A, fiber := e.nextFiber, scheduler := s } := by
    simp only [Engine.act, commit, freshFiber, getElem?_put, if_true]
  have hn := hk.notMem_nextCommit he
  refine ⟨((reshaped hm).later he).cells _ hk.cell, List.nodup_cons.2 ⟨hn, hk.distinct⟩, ?_, ?_, ?_⟩
  · intro p hp
    rcases List.mem_cons.1 hp with rfl | hp
    · exact ⟨_, hc, rfl⟩
    · exact hk.listed_act he hm p hp
  · intro id c hc'
    rw [List.map_cons, List.mem_cons]
    cases hd : e.commits[id]? with
    | none =>
      obtain ⟨_, _, _, _, -, rfl, -⟩ := fresh_of_act hm hd hc'
      exact .inl (.inl rfl)
    | some d =>
      rw [tree_act he hm hd hc']
      exact (hk.others id d hd).imp_left .inr
  · have hroom : l.overflows sem (e, .commit (a.tree sem) E A s) = false := by
      rw [Ledger.overflows, List.any_eq_false]
      intro p _ hp
      simp only [Bool.and_eq_true] at hp
      obtain ⟨c, hc⟩ := exists_of_finishes he hm hp.1
      cases (turn_of_finishes he hm hp.1 hc).1
    obtain ⟨v, hv, hb⟩ := hk.balance_act r hm hroom
    have hd : (e.act (.commit (a.tree sem) E A s)).isDone e.nextCommit = false := by
      simp [isDone, state?, hc]
    refine ⟨v, hv, ?_⟩
    simpa [Ledger.taken, Ledger.given, Ledger.total, hd] using hb

end Engine

end TransactionalMemory
