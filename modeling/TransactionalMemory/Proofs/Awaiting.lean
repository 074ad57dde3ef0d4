import TransactionalMemory.Proofs.Completion
import TransactionalMemory.Tx.Recover

namespace TransactionalMemory

variable {β : Type} [Universe β] {Ω : Type} {R E A : Ty β}

namespace Promise

def verdict (_ : Promise E A) : Option (Except E.El A.El) → Outcome β
  | none => .retry
  | some (.ok a) => .success ⟨A, a⟩
  | some (.error e) => .failure ⟨E, e⟩

def decide (p : Promise E A) (_ : Ω) (v : Any β) : Tree β Ω :=
  match v.as (.option (.result E A)) with
  | some r => .done (p.verdict r)
  | none => .done (mismatch (.option (.result E A)))

variable {p : Promise E A}

theorem await_tree :
    (p.await : Tx Ω R E A).tree = .onSuccess (p.poll : Tx Ω R E _).tree p.decide := by
  refine congrArg (Tree.onSuccess _) (funext fun ω => funext fun v => ?_)
  unfold decide Tx.cont
  cases v.as (.option (.result E A)) with
  | none => rfl
  | some r =>
    cases (r : Option (Except E.El A.El)) with
    | none => rfl
    | some r => cases r <;> rfl

theorem decide_holding (a : Option (Except E.El A.El)) (ω : Ω) :
    p.decide ω (p.holding a) = .done (p.verdict a) := by
  unfold decide
  rw [as_holding]

theorem touches_await : (p.await : Tx Ω R E A).tree.Touches p.Allows := by
  rw [await_tree]
  refine ⟨touches_poll, fun ω v => ?_⟩
  unfold decide
  split <;> trivial

theorem touches_optionally : (p.await : Tx Ω R E A).optionally.tree.Touches p.Allows := by
  refine ⟨⟨touches_await, fun ω v => ?_⟩, fun _ => trivial⟩
  unfold Tx.cont
  split <;> trivial

end Promise

namespace Moment

variable {p : Promise E A} {y : Moment β Ω} {fs : List (Frame β Ω)} {f : FiberId}
  {a : Option (Except E.El A.El)}

/-- The step is the look of an await, and outside the await there are the frames `fs`. -/
def Awaits (y : Moment β Ω) (p : Promise E A) (fs : List (Frame β Ω)) : Prop :=
  ∃ t k, (p.await : Tx Ω .unit E A).tree = .onSuccess t k ∧ y.machine.focus = .run t ∧
    y.machine.frames = .onSuccess k :: fs

/-- In three steps, whatever happens between them, the await that begins with this one comes to the
outcome. -/
def Comes (y : Moment β Ω) (o : Outcome β) (fs : List (Frame β Ω)) : Prop :=
  ∀ (f : FiberId) (x₁ x₂ : Scene β Ω),
    let m := (((y.next f).step f x₁.store x₁.world).1.step f x₂.store x₂.world).1
    m.focus = .exit o ∧ m.frames = fs

def Misses (y : Moment β Ω) (p : Promise E A) (fs : List (Frame β Ω)) : Prop :=
  y.Awaits p fs ∧ y.found p.cell = p.holding none

theorem Awaits.looks (h : y.Awaits p fs) : y.machine.focus = .run (.touch p.cell p.look) ∧
    y.machine.frames = .onSuccess p.decide :: fs := by
  obtain ⟨t, k, ht, hf, hfs⟩ := h
  rw [Promise.await_tree, Promise.poll_tree] at ht
  cases ht
  exact ⟨hf, hfs⟩

theorem Awaits.next (h : y.Awaits p fs) (ha : y.found p.cell = p.holding a) :
    (y.next f).focus = .exit (.success (p.holding a)) ∧
      (y.next f).frames = .onSuccess p.decide :: fs := by
  obtain ⟨hf, hfs⟩ := h.looks
  have hl : p.look (y.machine.journal.entry y.scene.store p.cell).current y.scene.world =
      .ok (.leave (.success (p.holding a))) := by
    rw [show (y.machine.journal.entry y.scene.store p.cell).current = p.holding a from ha]
    unfold Promise.look
    rw [Promise.as_holding]
    rfl
  refine ⟨Machine.focus_of_touch hf hl, ?_⟩
  simp only [Moment.next, Machine.step, hf, Machine.enter]
  exact hfs

theorem Awaits.comes (h : y.Awaits p fs) (ha : y.found p.cell = p.holding a) :
    y.Comes (p.verdict a) fs := by
  intro f x₁ x₂
  obtain ⟨hf, hfs⟩ := h.next (f := f) ha
  generalize y.next f = m at hf hfs
  obtain ⟨focus, env, frames, j⟩ := m
  cases hf
  cases hfs
  simp only [Machine.step, Machine.unwind, Promise.decide_holding]
  exact ⟨rfl, rfl⟩

end Moment

/-- A retry that comes to these frames is caught before it takes anything back. -/
def Catches (fs : List (Frame β Ω)) : Prop := ∃ k, fs.find? (·.takes .retry) = some (.onRetry k)

inductive Machine.Retries (p : Promise E A) (fs : List (Frame β Ω)) (m : Machine β Ω) : Prop
  | looked : m.focus = .exit (.success (p.holding none)) → m.frames = .onSuccess p.decide :: fs →
    Retries p fs m
  | decided : m.focus = .run (.done .retry) → m.frames = fs → Retries p fs m
  | retrying : m.focus = .exit .retry →
    m.frames.find? (·.takes .retry) = fs.find? (·.takes .retry) → Retries p fs m

namespace Machine.Retries

variable {p : Promise E A} {fs : List (Frame β Ω)} {m : Machine β Ω} {f : FiberId} {s : Store β} {ω : Ω}

theorem step (h : m.Retries p fs) (hr : m.rollsBack = false) :
    Catches fs ∨ (m.step f s ω).1.Retries p fs := by
  obtain ⟨focus, env, frames, j⟩ := m
  cases h with
  | looked hf hfs =>
    cases hf
    cases hfs
    exact .inr (.decided (by simp only [Machine.step, unwind, Promise.decide_holding]; rfl) rfl)
  | decided hf hfs =>
    cases hf
    cases hfs
    exact .inr (.retrying rfl rfl)
  | retrying hf hfs =>
    cases hf
    cases frames with
    | nil => exact .inr (.retrying rfl hfs)
    | cons g frames =>
      cases g with
      | onRetry k => exact .inl ⟨k, hfs.symm⟩
      | orElse saved r => cases hr
      | onSuccess | onFailure | restore => exact .inr (.retrying rfl hfs)

theorem length_le (h : m.Retries p fs) : (m.step f s ω).1.frames.length ≤ m.frames.length := by
  obtain ⟨focus, env, frames, j⟩ := m
  cases h with
  | looked hf hfs =>
    cases hf
    cases hfs
    exact Nat.le_succ _
  | decided hf => cases hf; exact Nat.le_refl _
  | retrying hf =>
    cases hf
    cases frames with
    | nil => exact Nat.le_refl _
    | cons g frames => cases g <;> exact Nat.le_succ _

theorem not_retried (h : m.Retries p fs) {o : Outcome β} (ho : m.outcome? = some o) : o = .retry := by
  obtain ⟨focus, env, frames, j⟩ := m
  cases h with
  | looked hf hfs =>
    cases hf
    cases hfs
    cases ho
  | decided hf => cases hf; cases ho
  | retrying hf =>
    cases hf
    cases frames with
    | nil => cases ho; rfl
    | cons => cases ho

end Machine.Retries

namespace Diary

variable {d : Diary β Ω} {f : FiberId} {y z : Moment β Ω} {l : List (Moment β Ω)} {p : Promise E A}

theorem mem_kept_note (h : z ∈ (d.note f y).kept) : z = y ∧ y.cell?.isSome ∨
    y.machine.rollsBack ∧ z ∈ d.marks.headD [] ∨ y.machine.rollsBack = false ∧ z ∈ d.kept := by
  rcases List.mem_append.1 h with h | h
  · split at h
    · rename_i hc
      exact .inl ⟨List.mem_singleton.1 h, hc⟩
    · cases h
  · cases hr : y.machine.rollsBack with
    | true => exact .inr (.inl ⟨rfl, by simpa [hr] using h⟩)
    | false => exact .inr (.inr ⟨rfl, by simpa [hr] using h⟩)

theorem mem_marks_note (h : l ∈ (d.note f y).marks) : l ∈ d.marks ∨
    l = (d.note f y).kept ∧ y.machine.frames.length < (y.next f).frames.length := by
  simp only [note] at h
  split at h
  · rename_i hlt
    rcases List.mem_cons.1 h with h | h
    · exact .inr ⟨h, hlt⟩
    · exact .inl h
  · exact .inl (List.mem_of_mem_drop h)

structure Settles (p : Promise E A) (d : Diary β Ω) (m : Machine β Ω) : Prop where
  kept : ∀ z ∈ d.kept, ∀ fs, z.Misses p fs → Catches fs ∨ m.Retries p fs
  marks : ∀ l ∈ d.marks, ∀ z ∈ l, ∀ fs, z.Misses p fs → Catches fs

theorem Settles.head (h : d.Settles p y.machine) (hz : z ∈ d.marks.headD []) {fs : List (Frame β Ω)}
    (hm : z.Misses p fs) : Catches fs := by
  cases hd : d.marks with
  | nil =>
    rw [hd] at hz
    cases hz
  | cons l ls =>
    rw [hd] at hz
    exact h.marks l (by rw [hd]; exact List.mem_cons_self) z hz fs hm

theorem Settles.step (h : d.Settles p y.machine) : (d.note f y).Settles p (y.next f) where
  kept z hz fs hm := by
    rcases mem_kept_note hz with ⟨rfl, -⟩ | ⟨-, hz⟩ | ⟨hr, hz⟩
    · obtain ⟨hf, hfs⟩ := hm.1.next (f := f) hm.2
      exact .inr (.looked hf hfs)
    · exact .inl (h.head hz hm)
    · rcases h.kept z hz fs hm with hc | hret
      · exact .inl hc
      · exact hret.step hr
  marks l hl z hz fs hm := by
    rcases mem_marks_note hl with hl | ⟨rfl, hlt⟩
    · exact h.marks l hl z hz fs hm
    · rcases mem_kept_note hz with ⟨rfl, -⟩ | ⟨-, hz⟩ | ⟨-, hz⟩
      · rw [(hm.1.next (f := f) hm.2).2, hm.1.looks.2] at hlt
        exact absurd hlt (Nat.lt_irrefl _)
      · exact h.head hz hm
      · -- While a retry is on its way no frame is put on the stack.
        rcases h.kept z hz fs hm with hc | hret
        · exact hc
        · exact absurd hlt (Nat.not_lt.2 hret.length_le)

end Diary

section

variable {h : History β Ω} {e : Engine β Ω} {i : CommitId} {c : Commit β Ω} {m : Machine β Ω}
  {p : Promise E A}

theorem Run.settles (r : Run h e) (hc : e.commits[i]? = some c) (hm : c.phase.attempt? = some m) :
    (h.diary i).Settles p m := by
  refine r.each_attempt (P := fun h _ i _ _ m => (h.diary i).Settles p m) ?_ ?_ ?_ hc hm
  · intro h e i c call _ hc hp
    rw [History.diary_launch hc hp]
    exact ⟨nofun, nofun⟩
  · intro h e i c call m _ hc hp ho ih
    rw [History.diary_step hc hp ho]
    exact ih.step (y := ⟨m, ⟨e.store, e.world⟩⟩)
  · intro h e i c m x _ _ hne _ _ ih
    rwa [History.diary_of_ne hne]

theorem Promise.Agrees.mem {l : List (Moment β Ω)} {j : Journal β} {s : Store β} {y : Moment β Ω}
    {fs : List (Frame β Ω)} (h : p.Agrees l j) (hk : j.Known s) (hy : y ∈ l) (ha : y.Awaits p fs) :
    p.cell ∈ s.cells := by
  unfold Promise.Agrees at h
  cases hx : j.entries[p.cell]? with
  | none =>
    rw [hx] at h
    exact absurd (Promise.cell?_of_touch ha.looks.1) (h y hy)
  | some x => exact (hk _ x hx).cell

theorem Run.awaited (r : Run h e) (hp : ∀ x ∈ h, p.Honored x) {x : Move β Ω} (hx : e.admits x)
    (hf : Engine.finishes i (e, x)) {y : Moment β Ω} (hy : y ∈ (h.diary i).kept)
    {fs : List (Frame β Ω)} (ha : y.Awaits p fs) :
    (∃ r, (e.act x).store.result? p = some r ∧ y.Comes (p.verdict (some r)) fs) ∨
      y.Misses p fs ∧ Catches fs := by
  obtain ⟨c, hc⟩ := Engine.exists_of_finishes r.tracked hx hf
  obtain ⟨m, o, hm, ho, hne, hcur, -, hland⟩ := r.landed_of_finishes hx hf hc
  have hag := r.agrees hp hc hm
  obtain ⟨a, hval⟩ := (r.completed hp).1 (hag.mem (r.tracked.known_attempt hc hm) hy ha)
  obtain ⟨b, hb, hst⟩ := hcur.result? hag hval
  have missed (hn : y.found p.cell = p.holding none) : y.Misses p fs ∧ Catches fs := by
    refine ⟨⟨ha, hn⟩, ?_⟩
    rcases (r.settles hc hm).kept y hy fs ⟨ha, hn⟩ with hcatch | hret
    · exact hcatch
    · exact absurd (hret.not_retried ho) hne
  rcases hst.looks y hy ha.looks.1 with hn | hfound
  · exact .inr (missed hn)
  · cases b with
    | none => exact .inr (missed hfound)
    | some r => exact .inl ⟨r, Store.result?_eq ((hland p.cell).trans hb), ha.comes hfound⟩

theorem Run.result?_of_mem (r : Run h e) (hp : ∀ x ∈ h, p.Honored x) {x : Engine β Ω × Move β Ω}
    (hx : x ∈ h) {res : Except E.El A.El} (hr : x.1.store.result? p = some res) :
    e.store.result? p = some res := by
  induction r with
  | start ω => cases hx
  | @next h e m r hm ih =>
    have hres : e.store.result? p = some res := by
      rcases List.mem_cons.1 hx with rfl | hx
      · exact hr
      · exact ih (List.forall_mem_cons.1 hp).2 hx
    have hbefore := (r.completed (List.forall_mem_cons.1 hp).2).2
    have hafter := ((r.next hm).completed hp).2
    obtain ⟨l, hl⟩ := History.completions_cons (p := p) (h := h) (e, m)
    rw [hl, hbefore, hres] at hafter
    cases ha : (e.act m).store.result? p with
    | none =>
      rw [ha] at hafter
      cases l <;> cases hafter
    | some res' =>
      rw [ha] at hafter
      cases l with
      | nil =>
        cases hafter
        rfl
      | cons z l => cases l <;> cases hafter

/-- A promise that is polled and completed and nothing else is completed at most once. Its result is
there for good and is that of the one completion that says that it did it. An await that finds none
retries. In a published attempt it comes to the result that the promise has then, unless its retry was
caught. -/
theorem Run.promise_kept (r : Run h e) (hp : ∀ x ∈ h, p.Honored x) :
    (∀ x ∈ h, ∀ res, x.1.store.result? p = some res → e.store.result? p = some res) ∧
    h.completions p = (e.store.result? p).toList ∧
    (∀ (y : Moment β Ω) fs, y.Misses p fs → y.Comes .retry fs) ∧
    ∀ (h₁ h₂ : History β Ω) x i, h = h₁ ++ x :: h₂ → Engine.finishes i x → ∀ y ∈ (h₂.diary i).kept, ∀ fs,
      y.Awaits p fs →
      (∃ res, (x.1.act x.2).store.result? p = some res ∧ y.Comes (p.verdict (some res)) fs) ∨
        y.Misses p fs ∧ Catches fs := by
  refine ⟨fun x hx res => r.result?_of_mem hp hx, (r.completed hp).2, fun y fs hy => hy.1.comes hy.2,
    ?_⟩
  rintro h₁ h₂ x i rfl hf y hy fs ha
  obtain ⟨r', hx⟩ := r.before
  have hp' : ∀ z ∈ h₂, p.Honored z := fun z hz => hp z (by simp [hz])
  exact r'.awaited hp' hx hf hy ha

end

def firstPromise : Promise (.never : Ty Scenario.Base) .nat := ⟨⟨1⟩⟩

def rivals : List (Move Scenario.Base Unit) :=
  let turns n i := List.replicate n (Move.advance ⟨i⟩)
  let complete (n : Nat) : Tx Unit .unit .never (.bool : Ty Scenario.Base) := firstPromise.succeed n
  let await : Tx Unit .unit .never .nat := firstPromise.await
  [.alloc (firstPromise.holding none), .commit (complete 5).tree .never .bool none,
    .commit (complete 6).tree .never .bool none, .commit await.tree .never .nat none,
    .runSync ⟨1⟩, .runSync ⟨2⟩] ++ turns 3 1 ++ turns 3 2 ++ turns 1 1 ++ turns 5 2 ++
  [.runSync ⟨3⟩] ++ turns 7 3

theorem promise_kept_rivals :
    let q := Engine.play { world := () } [] rivals
    History.completions firstPromise q.1 = [.ok (5 : Nat)] ∧
      ∃ (y : Moment Scenario.Base Unit) (fs : _), y.Awaits firstPromise fs ∧
        y.Comes (.success ⟨.nat, (5 : Nat)⟩) fs := by
  intro q
  have r : Run q.1 q.2 := (Run.start ()).play (by decide +kernel)
  have hp : ∀ x ∈ q.1, firstPromise.Honored x := by
    refine Run.honored_play rfl r ?_ (l := q.1.dropLast) (x := ({ world := () }, .alloc _))
      (by with_unfolding_all rfl) (by decide +kernel) (by with_unfolding_all rfl)
    intro t E A s ht
    simp only [rivals, List.replicate, List.cons_append, List.nil_append, List.mem_cons,
      Move.commit.injEq, reduceCtorEq, false_or, or_false, List.not_mem_nil] at ht
    rcases ht with ⟨rfl, -⟩ | ⟨rfl, -⟩ | ⟨rfl, -⟩
    · exact Promise.touches_complete _
    · exact Promise.touches_complete _
    · exact Promise.touches_await
  obtain ⟨-, hcount, -, hawaits⟩ := r.promise_kept hp
  have hres : q.2.store.result? firstPromise = some (.ok (5 : Nat)) := by with_unfolding_all rfl
  rw [hres] at hcount
  refine ⟨hcount, ?_⟩
  obtain ⟨y, fs, hy, ha, hfound⟩ : ∃ (y : Moment Scenario.Base Unit) (fs : _),
      (History.diary ⟨3⟩ q.1.tail).kept = [y] ∧ y.Awaits firstPromise fs ∧
        y.found firstPromise.cell = firstPromise.holding (some (.ok (5 : Nat))) :=
    ⟨_, _, by with_unfolding_all rfl, ⟨_, _, rfl, rfl, rfl⟩, by with_unfolding_all rfl⟩
  obtain ⟨x, hx, hf, hafter⟩ : ∃ x, q.1 = [] ++ x :: q.1.tail ∧ Engine.finishes ⟨3⟩ x ∧
      (x.1.act x.2).store.result? firstPromise = some (.ok (5 : Nat)) :=
    ⟨_, by with_unfolding_all rfl, by decide +kernel, by with_unfolding_all rfl⟩
  refine ⟨y, fs, ha, ?_⟩
  rcases hawaits [] q.1.tail x ⟨3⟩ hx hf y (by rw [hy]; exact List.mem_singleton_self y) fs ha with
    ⟨r, hr, hc⟩ | ⟨hmiss, -⟩
  · cases hafter.symm.trans hr
    exact hc
  · cases Promise.holding_inj (hfound.symm.trans hmiss.2)

def impatience : List (Move Scenario.Base Unit) :=
  let await : Tx Unit .unit .never .nat := firstPromise.await
  [.alloc (firstPromise.holding none), .commit await.optionally.tree .never (.option .nat) none,
    .runSync ⟨1⟩] ++ List.replicate 12 (.advance ⟨1⟩)

theorem not_awaited_impatience :
    ¬ ∀ (h : History Scenario.Base Unit) (e : Engine Scenario.Base Unit), Run h e →
      (∀ x ∈ h, firstPromise.Honored x) →
      ∀ (h₁ h₂ : History Scenario.Base Unit) x i, h = h₁ ++ x :: h₂ → Engine.finishes i x →
      ∀ y ∈ (h₂.diary i).kept, ∀ fs, y.Awaits firstPromise fs →
      ∃ r, (x.1.act x.2).store.result? firstPromise = some r ∧
        y.Comes (firstPromise.verdict (some r)) fs := by
  -- An await that stands in a published attempt need not have come to a result.
  intro hall
  let q := Engine.play { world := () } [] impatience
  have r : Run q.1 q.2 := (Run.start ()).play (by decide +kernel)
  have hp : ∀ x ∈ q.1, firstPromise.Honored x := by
    refine Run.honored_play rfl r ?_ (l := q.1.dropLast) (x := ({ world := () }, .alloc _))
      (by with_unfolding_all rfl) (by decide +kernel) (by with_unfolding_all rfl)
    intro t E A s ht
    simp only [impatience, List.replicate, List.cons_append, List.nil_append, List.mem_cons,
      Move.commit.injEq, reduceCtorEq, false_or, or_false, List.not_mem_nil] at ht
    obtain ⟨rfl, -⟩ := ht
    exact Promise.touches_optionally
  obtain ⟨y, fs, hy, ha⟩ : ∃ (y : Moment Scenario.Base Unit) (fs : _),
      (History.diary ⟨1⟩ q.1.tail).kept = [y] ∧ y.Awaits firstPromise fs :=
    ⟨_, _, by with_unfolding_all rfl, _, _, rfl, rfl, rfl⟩
  obtain ⟨x, hx, hf, hafter⟩ : ∃ x, q.1 = [] ++ x :: q.1.tail ∧ Engine.finishes ⟨1⟩ x ∧
      (x.1.act x.2).store.result? firstPromise = none :=
    ⟨_, by with_unfolding_all rfl, by decide +kernel, by with_unfolding_all rfl⟩
  obtain ⟨res, hres, -⟩ := hall q.1 q.2 r hp [] q.1.tail x ⟨1⟩ hx hf y
    (by rw [hy]; exact List.mem_singleton_self y) fs ha
  cases hafter.symm.trans hres

end TransactionalMemory
