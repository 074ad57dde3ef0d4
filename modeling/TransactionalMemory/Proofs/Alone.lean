import TransactionalMemory.Proofs.Journals

namespace TransactionalMemory

variable {β : Type} [Universe β] {Ω : Type}

/-- User code that gives what its arguments say. It may change its surroundings, but nothing it gives
depends on them. -/
def Tree.Pure : Tree β Ω → Prop
  | .effect f => ∀ ω ω' x env, (f ω x env).1 = (f ω' x env).1
  | .touch _ f => ∀ ω ω' v, f v ω = f v ω'
  | .make _ _ => True
  | .crash _ => True
  | .once _ => True
  | .onSuccess t k => t.Pure ∧ (∀ ω ω' v, k ω v = k ω' v) ∧ ∀ ω v, (k ω v).Pure
  | .onSuccessOnce t k => t.Pure ∧ (∀ ω ω' v, k ω v = k ω' v) ∧ ∀ ω v, (k ω v).Pure
  | .onFailure t k => t.Pure ∧ (∀ ω ω' v, k ω v = k ω' v) ∧ ∀ ω v, (k ω v).Pure
  | .onRetry t k => t.Pure ∧ (∀ ω ω', k ω = k ω') ∧ ∀ ω, (k ω).Pure
  | .orElse l r => l.Pure ∧ r.Pure
  | .provide t f => t.Pure ∧ ∀ ω ω' env, f env ω = f env ω'
  | .loop t judge => t.Pure ∧ ∀ ω ω' v, judge v ω = judge v ω'

def Frame.Pure : Frame β Ω → Prop
  | .onSuccess k | .onFailure k => (∀ ω ω' v, k ω v = k ω' v) ∧ ∀ ω v, (k ω v).Pure
  | .onRetry k => (∀ ω ω', k ω = k ω') ∧ ∀ ω, (k ω).Pure
  | .orElse _ r => r.Pure
  | .restore _ => True

section

variable {t : Tree β Ω} {judge : Any β → Code Ω (Option (Outcome β))} {ω ω' : Ω} {v : Any β}

theorem Tree.again_congr (h : judge v ω = judge v ω') : t.again judge ω v = t.again judge ω' v := by
  simp only [again, h]

theorem Tree.pure_again (ht : (t.loop judge).Pure) : (t.again judge ω v).Pure := by
  unfold again
  split
  · exact ht
  · trivial
  · exact fun _ _ _ _ => rfl
  · trivial

end

namespace Machine

structure Pure (m : Machine β Ω) : Prop where
  focus : ∀ t, m.focus = .run t → t.Pure
  frames : ∀ f ∈ m.frames, f.Pure

variable {m : Machine β Ω} {f : FiberId} {s : Store β} {ω : Ω}

theorem pure_start {t : Tree β Ω} {env : Any β} (h : t.Pure) : (start t env).Pure where
  focus := by
    rintro u hu
    cases hu
    exact h
  frames := by simp [start]

theorem Pure.exit {o : Outcome β} {fs : List (Frame β Ω)} {env : Any β} {j : Journal β}
    (h : ∀ f ∈ fs, f.Pure) : ({ focus := .exit o, env, frames := fs, journal := j } :
      Machine β Ω).Pure :=
  ⟨nofun, h⟩

theorem Pure.run {t : Tree β Ω} {fs : List (Frame β Ω)} {env : Any β} {j : Journal β} (ht : t.Pure)
    (h : ∀ f ∈ fs, f.Pure) : ({ focus := .run t, env, frames := fs, journal := j } :
      Machine β Ω).Pure where
  focus := by
    rintro u hu
    cases hu
    exact ht
  frames := h

theorem Pure.enter (h : m.Pure) {t : Tree β Ω} (ht : t.Pure) : (m.enter f s ω t).1.Pure := by
  have push {g : Frame β Ω} (hg : g.Pure) : ∀ x ∈ g :: m.frames, x.Pure :=
    List.forall_mem_cons.2 ⟨hg, h.frames⟩
  cases t with
  | effect | touch | make | crash | once => exact .exit h.frames
  | onSuccess t k | onSuccessOnce t k | onFailure t k | onRetry t k => exact .run ht.1 (push ht.2)
  | orElse l r => exact .run ht.1 (push ht.2)
  | loop t judge =>
    exact .run ht.1 (push ⟨fun ω ω' v => Tree.again_congr (ht.2 ω ω' v), fun _ _ => Tree.pure_again ht⟩)
  | provide t g =>
    simp only [Machine.enter]
    cases g m.env ω with
    | error p => exact .exit h.frames
    | ok r =>
      cases r with
      | error d => exact .exit h.frames
      | ok env => exact .run ht.1 (push trivial)

theorem Pure.unwind (h : m.Pure) (o : Outcome β) {fs : List (Frame β Ω)} (hfs : ∀ g ∈ fs, g.Pure) :
    (m.unwind ω o fs).Pure := by
  cases fs with
  | nil => cases o <;> exact .exit h.frames
  | cons g fs =>
    obtain ⟨hg, hrest⟩ := List.forall_mem_cons.1 hfs
    cases o with
    | success v =>
      cases g with
      | onSuccess k => exact .run (hg.2 ω v) hrest
      | onFailure | onRetry | orElse | restore => exact .exit hrest
    | failure x =>
      cases g with
      | onFailure k => exact .run (hg.2 ω x) hrest
      | onSuccess | onRetry | orElse | restore => exact .exit hrest
    | retry =>
      cases g with
      | onRetry k => exact .run (hg.2 ω) hrest
      | orElse saved r => exact .run hg hrest
      | onSuccess | onFailure | restore => exact .exit hrest
    | halt | interrupt => cases g <;> exact .exit hrest

theorem Pure.step (h : m.Pure) : (m.step f s ω).1.Pure := by
  unfold Machine.step
  cases hf : m.focus with
  | run t => exact h.enter (h.focus t hf)
  | exit o => exact h.unwind o h.frames

end Machine

def Entry.seen (x : Entry β) : Any β × Option (Any β) × Bool :=
  (x.expected.value, x.pending, x.created)

theorem Entry.seen_inj {x y : Entry β} : x.seen = y.seen ↔
    x.expected.value = y.expected.value ∧ x.pending = y.pending ∧ x.created = y.created := by
  simp [seen]

namespace Journal

def Like (j k : Journal β) : Prop :=
  ∀ c : CellId, (j.entries[c]?).map Entry.seen = (k.entries[c]?).map Entry.seen

variable {j k : Journal β} {s t : Store β} {c : CellId}

theorem Like.refl : Like j j := fun _ => rfl

theorem Like.symm (h : j.Like k) : k.Like j := fun c => (h c).symm

theorem Like.creates (h : j.Like k) (hc : j.Creates c) : k.Creates c := by
  obtain ⟨x, hx, hcr⟩ := hc
  have hj := h c
  rw [hx, Option.map_some, eq_comm, Option.map_eq_some_iff] at hj
  obtain ⟨y, hy, hseen⟩ := hj
  exact ⟨y, hy, (Entry.seen_inj.1 hseen).2.2.trans hcr⟩

theorem Like.put (h : j.Like k) {x y : Entry β} (hx : x.seen = y.seen) :
    (j.put c x).Like (k.put c y) := by
  intro d
  rw [getElem?_put, getElem?_put]
  split
  · exact congrArg some hx
  · exact h d

theorem Like.checkpoint_eq (h : j.Like k) : j.checkpoint = k.checkpoint := by
  apply Std.ExtTreeMap.ext_getElem?
  intro c
  have hc := congrArg (Option.map fun p => p.2.1) (h c)
  simpa [getElem?_checkpoint, Entry.seen, Function.comp_def] using hc

theorem Like.rollback (h : j.Like k) (saved : Checkpoint β) :
    (j.rollback saved).Like (k.rollback saved) := by
  intro c
  have hc := congrArg (Option.map fun p => (p.1, (saved[c]?).join, p.2.2)) (h c)
  simpa [getElem?_rollback, Entry.seen, Function.comp_def] using hc

theorem seen_set {x y : Entry β} (h : x.seen = y.seen) (v : Any β) :
    (x.set v).map Entry.seen = (y.set v).map Entry.seen := by
  obtain ⟨he, hp, hc⟩ := Entry.seen_inj.1 h
  have hcur : x.current = y.current := by simp only [Entry.current, he, hp]
  simp only [Entry.set, hcur, he]
  split
  · split
    · exact congrArg Except.ok h
    · split
      · exact congrArg Except.ok (Entry.seen_inj.2 ⟨he, rfl, hc⟩)
      · exact congrArg Except.ok (Entry.seen_inj.2 ⟨he, rfl, hc⟩)
  · rfl

theorem Like.touch (h : j.Like k) (hx : (j.entry s c).seen = (k.entry t c).seen)
    (f : Any β → Except Panic (Access β)) :
    (j.touch s c f).1 = (k.touch t c f).1 ∧ (j.touch s c f).2.Like (k.touch t c f).2 := by
  generalize hx₁ : j.entry s c = x at hx
  generalize hx₂ : k.entry t c = y at hx
  obtain ⟨he, hp, -⟩ := Entry.seen_inj.1 hx
  have hcur : x.current = y.current := by simp only [Entry.current, he, hp]
  simp only [Journal.touch, hx₁, hx₂, hcur]
  cases f y.current with
  | error p => exact ⟨rfl, h.put hx⟩
  | ok a =>
    cases a with
    | leave o => exact ⟨rfl, h.put hx⟩
    | write v r =>
      have hs := seen_set hx v
      cases hsx : x.set v <;> cases hsy : y.set v <;>
        simp only [hsx, hsy, Except.map, reduceCtorEq, Except.ok.injEq, Except.error.injEq] at hs ⊢
      · subst hs
        exact ⟨rfl, h.put hx⟩
      · exact ⟨trivial, h.put hs⟩

end Journal

namespace Machine

structure Like (m n : Machine β Ω) : Prop where
  focus : m.focus = n.focus
  env : m.env = n.env
  frames : m.frames = n.frames
  journal : m.journal.Like n.journal

variable {m n : Machine β Ω} {f : FiberId} {s t : Store β} {ω ω' : Ω}

theorem Like.refl : Like m m := ⟨rfl, rfl, rfl, .refl⟩

theorem Like.outcome?_eq (h : m.Like n) : m.outcome? = n.outcome? := by
  simp only [outcome?, h.focus, h.frames]

theorem Like.enter (h : n.Like m) {u : Tree β Ω} (hp : u.Pure)
    (hread : ∀ c g, u = .touch c g → (n.journal.entry t c).seen = (m.journal.entry s c).seen)
    (hmake : ∀ v answer, u = .make v answer → t.nextCell = s.nextCell) :
    (n.enter f t ω' u).1.Like (m.enter f s ω u).1 := by
  cases u with
  | effect g =>
    refine ⟨?_, h.env, h.frames, h.journal⟩
    simp only [Machine.enter, h.env, hp ω' ω]
  | touch c g =>
    have hg : (fun v => g v ω') = fun v => g v ω := funext fun v => hp ω' ω v
    have hj := h.journal.touch (hread c g rfl) fun v => g v ω
    refine ⟨?_, h.env, h.frames, ?_⟩
    · simp only [Machine.enter, hg, hj.1]
    · simp only [Machine.enter, hg]
      exact hj.2
  | make v answer =>
    have hc : (t.alloc v).1 = (s.alloc v).1 := hmake v answer rfl
    refine ⟨?_, h.env, h.frames, ?_⟩
    · simp only [Machine.enter, hc]
    · simp only [Machine.enter, hc, Journal.insertNew]
      apply h.journal.put
      rw [Entry.seen_inj]
      refine ⟨?_, rfl, rfl⟩
      have hn : t.nextCell = s.nextCell := hc
      simp only [Store.version_alloc]
      simp [Store.alloc, hn]
  | crash p => exact ⟨rfl, h.env, h.frames, h.journal⟩
  | once v => exact ⟨rfl, h.env, h.frames, h.journal⟩
  | onSuccess u k | onSuccessOnce u k | onFailure u k | onRetry u k | loop u judge =>
    exact ⟨rfl, h.env, congrArg (_ :: ·) h.frames, h.journal⟩
  | orElse l r =>
    refine ⟨rfl, h.env, ?_, h.journal⟩
    simp only [Machine.enter, h.frames, h.journal.checkpoint_eq]
  | provide u g =>
    simp only [Machine.enter, h.env, hp.2 ω' ω]
    cases g m.env ω with
    | error p => exact ⟨rfl, rfl, h.frames, h.journal⟩
    | ok r =>
      cases r with
      | error d => exact ⟨rfl, rfl, h.frames, h.journal⟩
      | ok env => exact ⟨rfl, rfl, congrArg (_ :: ·) h.frames, h.journal⟩

theorem Like.unwind (h : n.Like m) (o : Outcome β) {fs : List (Frame β Ω)} (hp : ∀ g ∈ fs, g.Pure) :
    (n.unwind ω' o fs).Like (m.unwind ω o fs) := by
  cases fs with
  | nil => cases o <;> exact ⟨rfl, h.env, h.frames, h.journal⟩
  | cons g fs =>
    have hg := hp g List.mem_cons_self
    have same {x : Focus β Ω} : ({ n with focus := x, frames := fs } : Machine β Ω).Like
      { m with focus := x, frames := fs } := ⟨rfl, h.env, rfl, h.journal⟩
    have restore {x : Focus β Ω} {env : Any β} :
      ({ n with focus := x, env, frames := fs } : Machine β Ω).Like
        { m with focus := x, env, frames := fs } := ⟨rfl, rfl, rfl, h.journal⟩
    cases o with
    | success v =>
      cases g with
      | onSuccess k =>
        simp only [Machine.unwind, hg.1 ω' ω]
        exact same
      | restore env => exact restore
      | onFailure | onRetry | orElse => exact same
    | failure x =>
      cases g with
      | onFailure k =>
        simp only [Machine.unwind, hg.1 ω' ω]
        exact same
      | restore env => exact restore
      | onSuccess | onRetry | orElse => exact same
    | retry =>
      cases g with
      | onRetry k =>
        simp only [Machine.unwind, hg.1 ω' ω]
        exact same
      | orElse saved r => exact ⟨rfl, h.env, rfl, h.journal.rollback saved⟩
      | restore env => exact restore
      | onSuccess | onFailure => exact same
    | halt | interrupt =>
      cases g with
      | restore env => exact restore
      | onSuccess | onFailure | onRetry | orElse => exact same

theorem Like.step (h : n.Like m) (hp : m.Pure)
    (hread : ∀ c g, m.focus = .run (.touch c g) →
      (n.journal.entry t c).seen = (m.journal.entry s c).seen)
    (hmake : ∀ v answer, m.focus = .run (.make v answer) → t.nextCell = s.nextCell) :
    (n.step f t ω').1.Like (m.step f s ω).1 := by
  simp only [Machine.step, h.focus]
  cases hf : m.focus with
  | run u =>
    apply h.enter (hp.focus u hf)
    · rintro c g rfl
      exact hread c g hf
    · rintro v answer rfl
      exact hmake v answer hf
  | exit o =>
    simp only [h.frames]
    exact h.unwind o hp.frames

/-- The moments of a run that nothing interferes with. A cell it makes may get any free number. -/
inductive Alone (f : FiberId) (m₀ : Machine β Ω) (s₀ : Store β) (ω₀ : Ω) :
    Machine β Ω → Store β → Ω → Prop
  | start : Alone f m₀ s₀ ω₀ m₀ s₀ ω₀
  | step {m : Machine β Ω} {s : Store β} {ω : Ω} (n : CellId) : Alone f m₀ s₀ ω₀ m s ω →
    m.outcome? = none → (∀ v answer, m.focus = .run (.make v answer) → n ∉ s.cells) →
    Alone f m₀ s₀ ω₀ (m.step f { s with nextCell := n } ω).1
      (m.step f { s with nextCell := n } ω).2.1 (m.step f { s with nextCell := n } ω).2.2

end Machine

namespace Journal

def Met (j : Journal β) (s : Store β) : Prop :=
  ∀ (c : CellId) (x : Entry β), j.entries[c]? = some x →
    if x.created then c ∉ s.cells else s.value c = x.expected.value

def Current (j : Journal β) (s : Store β) : Prop :=
  ∀ (c : CellId) (x : Entry β), j.entries[c]? = some x → x.expected = s.version c

variable {j k : Journal β} {s : Store β} {c : CellId}

theorem Met.of_extends (h : k.Met s) (he : j.Extends k) : j.Met s := by
  intro c x hx
  obtain ⟨p, hp⟩ := he c x hx
  exact h c { x with pending := p } hp

theorem Current.isValid (h : j.Current s) : j.isValid s := by
  rw [isValid_iff]
  intro c x hx
  rw [Entry.isValid, Version.same_iff, h c x hx]
  exact ⟨rfl, rfl⟩

theorem Current.put {x : Entry β} (h : j.Current s) (hx : x.expected = s.version c) :
    (j.put c x).Current s := by
  intro d y hy
  rw [getElem?_put] at hy
  split at hy
  · rename_i e
    cases hy
    exact e ▸ hx
  · exact h d y hy

theorem Current.rollback (h : j.Current s) (saved : Checkpoint β) : (j.rollback saved).Current s := by
  intro c x hx
  rw [getElem?_rollback, Option.map_eq_some_iff] at hx
  obtain ⟨y, hy, rfl⟩ := hx
  exact h c y hy

theorem Current.touch (h : j.Current s) (f : Any β → Except Panic (Access β)) :
    (j.touch s c f).2.Current s := by
  obtain ⟨p, e⟩ := touch_eq_put (j := j) (s := s) (c := c) f
  rw [e]
  apply h.put
  cases hx : j.entries[c]? with
  | none => simp only [entry, hx]; rfl
  | some x =>
    rw [entry_eq_of_getElem? hx]
    exact h c x hx

end Journal

namespace Machine

variable {m n : Machine β Ω} {f : FiberId} {s t : Store β} {ω ω' : Ω} {u : Tree β Ω}

theorem Logged.current {j : Journal β} (h : Logged m s j t) (hc : m.journal.Current s) :
    j.Current t := by
  cases h with
  | keep => exact hc
  | touch f hf => exact hc.touch f
  | rollback k => exact hc.rollback k
  | @make v answer hf =>
    intro d y hy
    rw [Journal.insertNew, Journal.getElem?_put] at hy
    split at hy
    · rename_i e
      cases hy
      rw [e]
    · rename_i e
      rw [Store.version_alloc, if_neg e]
      exact hc d y hy

theorem Logged.getElem?_cells {j : Journal β} {c : CellId} (h : Logged m s j t)
    (hc : ¬ j.Creates c) : t.cells[c]? = s.cells[c]? := by
  cases h with
  | keep | touch | rollback => rfl
  | @make v answer hf =>
    have hn : s.nextCell ≠ c := by
      rintro rfl
      exact hc ⟨_, by rw [Journal.insertNew, Journal.getElem?_put, if_pos rfl], rfl⟩
    simp [Store.alloc, Std.ExtTreeMap.getElem?_insert, hn]

def Replays (m : Machine β Ω) (u : Tree β Ω) (f : FiberId) : Prop :=
  ∀ (s : Store β) (ω : Ω), m.journal.Met s → ∃ n t ω', Alone f (.start u .unit) s ω n t ω' ∧
    n.Like m ∧ n.journal.Current t ∧ ∀ c, ¬ m.journal.Creates c → t.cells[c]? = s.cells[c]?

theorem replays_start : (start u .unit).Replays u f := by
  intro s ω _
  refine ⟨_, s, ω, .start, .refl, ?_, fun _ _ => rfl⟩
  intro c x hx
  simp [start] at hx

theorem Like.seen_entry {c : CellId} (h : n.Like m) (hv : m.journal.entries[c]? = none →
    t.value c = s.value c) : (n.journal.entry t c).seen = (m.journal.entry s c).seen := by
  have hc := h.journal c
  cases hm : m.journal.entries[c]? <;> cases hn : n.journal.entries[c]? <;>
    simp only [hm, hn, Option.map_none, Option.map_some, reduceCtorEq, Option.some.injEq] at hc
  · simp only [Journal.entry, hm, hn]
    exact Entry.seen_inj.2 ⟨hv hm, rfl, rfl⟩
  · simp only [Journal.entry, hm, hn]
    exact hc

theorem creates_of_make (hs : s.Sound) (hk : m.journal.Known s) {v : Any β} {answer : CellId → Any β}
    (hf : m.focus = .run (.make v answer)) :
    (m.step f s ω).1.journal.Creates s.nextCell ∧ ¬ m.journal.Creates s.nextCell := by
  constructor
  · refine ⟨{ expected := (s.alloc v).2.version s.nextCell, created := true }, ?_, rfl⟩
    simp only [Machine.step, hf, Machine.enter]
    rw [Journal.insertNew, Journal.getElem?_put]
    exact if_pos rfl
  · rintro ⟨x, hx, -⟩
    exact hs.nextCell_notMem (hk _ x hx).cell

theorem entry_of_touch {c : CellId} {g : Any β → Code Ω (Access β)}
    (hf : m.focus = .run (.touch c g)) (hc : m.journal.entries[c]? = none) :
    ∃ x, (m.step f s ω).1.journal.entries[c]? = some x ∧ x.created = false ∧
      x.expected.value = s.value c := by
  obtain ⟨p, e⟩ := Journal.touch_eq_put (j := m.journal) (s := s) (c := c) fun v => g v ω
  refine ⟨{ m.journal.entry s c with pending := p }, ?_, ?_⟩
  · simp only [Machine.step, hf, Machine.enter]
    rw [e, Journal.getElem?_put, if_pos rfl]
  · simp only [Journal.entry, hc]
    exact ⟨rfl, rfl⟩

theorem Replays.step (h : m.Replays u f) (hp : m.Pure) (hs : s.Sound) (hk : m.journal.Known s)
    (ho : m.outcome? = none) : (m.step f s ω).1.Replays u f := by
  have he := (logged (m := m) (f := f) (s := s) (ω := ω)).extends hs hk
  intro σ ω₀ hmet
  obtain ⟨n, t, ω', ha, hlike, hcur, hframe⟩ := h σ ω₀ (hmet.of_extends he)
  -- Where the step makes a cell, the run alone is given the same number for it.
  have hl := logged (m := n) (f := f) (s := { t with nextCell := s.nextCell }) (ω := ω')
  have hlike' : (n.step f { t with nextCell := s.nextCell } ω').1.Like (m.step f s ω).1 := by
    apply hlike.step hp
    · intro c g hf
      apply hlike.seen_entry
      intro hc
      obtain ⟨x, hx, hcr, hv⟩ := entry_of_touch (f := f) (s := s) (ω := ω) hf hc
      have hσ : σ.value c = x.expected.value := by simpa [hcr] using hmet c x hx
      have ht : t.cells[c]? = σ.cells[c]? := hframe c (by rintro ⟨y, hy, -⟩; simp [hc] at hy)
      calc
        t.value c = σ.value c := by simp only [Store.value, Store.version, Store.cell, ht]
        _ = s.value c := hσ.trans hv
    · intro v answer _
      rfl
  refine ⟨_, _, _, ha.step s.nextCell (hlike.outcome?_eq.trans ho) ?_, hlike', hl.current hcur, ?_⟩
  · intro v answer hf
    obtain ⟨⟨x, hx, hcr⟩, hn⟩ := creates_of_make (f := f) (ω := ω) hs hk (hlike.focus ▸ hf)
    have hσ : s.nextCell ∉ σ.cells := by simpa [hcr] using hmet _ x hx
    rw [← Std.ExtTreeMap.isSome_getElem?_iff_mem, hframe _ hn,
      Std.ExtTreeMap.isSome_getElem?_iff_mem]
    exact hσ
  · intro c hc
    have hc₀ : ¬ m.journal.Creates c := fun h => hc (h.of_extends he)
    exact (hl.getElem?_cells fun h => hc (hlike'.journal.creates h)).trans (hframe c hc₀)

end Machine

namespace Store

def without (s : Store β) (j : Journal β) : Store β :=
  { s with cells := s.cells.filter fun c _ => !(j.entries[c]?).any (·.created) }

variable {s : Store β} {j : Journal β} {c : CellId}

theorem getElem?_without (h : ¬ j.Creates c) : (s.without j).cells[c]? = s.cells[c]? := by
  have hc : (j.entries[c]?).any (·.created) = false := by
    cases hx : j.entries[c]? with
    | none => rfl
    | some x => simpa using fun hcr => h ⟨x, hx, hcr⟩
  cases hs : s.cells[c]? <;> simp [without, Std.ExtTreeMap.getElem?_filter, hs, hc, Option.filter]

theorem notMem_without (h : j.Creates c) : c ∉ (s.without j).cells := by
  obtain ⟨x, hx, hcr⟩ := h
  simp [without, Std.ExtTreeMap.mem_filter, hx, hcr]

end Store

theorem Journal.met_without {j : Journal β} {s : Store β} (h : j.Current s) : j.Met (s.without j) := by
  intro c x hx
  split
  · rename_i hcr
    exact Store.notMem_without ⟨x, hx, hcr⟩
  · rename_i hcr
    have hc : ¬ j.Creates c := by
      rintro ⟨y, hy, hy'⟩
      rw [hx] at hy
      cases hy
      exact hcr hy'
    rw [h c x hx]
    simp only [Store.value, Store.version, Store.cell, Store.getElem?_without hc]

end TransactionalMemory
