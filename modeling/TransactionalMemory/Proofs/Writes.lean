import TransactionalMemory.Proofs.Journals

namespace TransactionalMemory

variable {β : Type} [Universe β] {Ω : Type}

def Entry.News (x : Entry β) : Prop := ∀ v, x.pending = some v → x.expected.value.same v = false

def Journal.News (j : Journal β) : Prop :=
  ∀ (c : CellId) (x : Entry β), j.entries[c]? = some x → x.News

theorem Entry.News.set {x y : Entry β} {v : Any β} (h : x.News) (hv : x.set v = .ok y) : y.News := by
  unfold Entry.set at hv
  split at hv
  · split at hv
    · cases hv
      exact h
    · split at hv
      · cases hv
        exact nofun
      · rename_i hn
        cases hv
        rintro w ⟨⟩
        simpa using hn
  · cases hv

namespace Journal

variable {j : Journal β} {s : Store β} {c : CellId} {k : Checkpoint β}

structure Saves (j : Journal β) (k : Checkpoint β) : Prop where
  known : ∀ c : CellId, j.entries[c]? = none → k[c]? = none
  news : (j.rollback k).News

theorem News.put {x : Entry β} (h : j.News) (hx : x.News) : (j.put c x).News := by
  intro d y hy
  rw [getElem?_put] at hy
  split at hy
  · cases hy
    exact hx
  · exact h d y hy

theorem News.entry (h : j.News) : (j.entry s c).News := by
  cases hx : j.entries[c]? with
  | none =>
    simp only [Journal.entry, hx]
    intro v hv
    cases hv
  | some x =>
    rw [entry_eq_of_getElem? hx]
    exact h c x hx

theorem News.touch (h : j.News) (f : Any β → Except Panic (Access β)) : (j.touch s c f).2.News := by
  have hx : (j.entry s c).News := h.entry
  rcases touch_put_cases (j := j) (s := s) (c := c) f with ⟨v, y, hy, e⟩ | e
  · rw [e]
    exact h.put (hx.set hy)
  · rw [e]
    exact h.put hx

theorem rollback_checkpoint : j.rollback j.checkpoint = j := by
  obtain ⟨entries⟩ := j
  rw [rollback, Journal.mk.injEq]
  apply Std.ExtTreeMap.ext_getElem?
  intro c
  cases h : entries[c]? <;> simp [checkpoint, h]

theorem News.checkpoint (h : j.News) : j.Saves j.checkpoint where
  known c hc := by simp [getElem?_checkpoint, hc]
  news := by rwa [rollback_checkpoint]

theorem Saves.of_extends {j' : Journal β} (h : j.Saves k) (he : j.Extends j') : j'.Saves k where
  known c hc := h.known c (he.getElem?_eq_none hc)
  news := by
    intro c x hx
    rw [getElem?_rollback, Option.map_eq_some_iff] at hx
    obtain ⟨y, hy, rfl⟩ := hx
    cases hz : j.entries[c]? with
    | none =>
      simp only [h.known c hz]
      exact nofun
    | some z =>
      obtain ⟨p, hp⟩ := he c z hz
      rw [hy] at hp
      cases hp
      exact h.news c { z with pending := (k[c]?).join } (by rw [getElem?_rollback, hz]; rfl)

end Journal

namespace Machine

structure News (m : Machine β Ω) : Prop where
  journal : m.journal.News
  frames : ∀ k r, .orElse k r ∈ m.frames → m.journal.Saves k

variable {m : Machine β Ω} {f : FiberId} {s : Store β} {ω : Ω}

theorem news_start {t : Tree β Ω} {env : Any β} : (start t env).News where
  journal c x hx := by simp [start] at hx
  frames k r hk := by simp [start] at hk

theorem News.enter (h : m.News) {t : Tree β Ω}
    (he : m.journal.Extends (m.enter f s ω t).1.journal) : (m.enter f s ω t).1.News := by
  -- A frame that holds no checkpoint may be put on top.
  have push {g : Frame β Ω} {x : Focus β Ω} {env : Any β} (hg : ∀ k r, g ≠ .orElse k r) :
      ({ m with focus := x, env, frames := g :: m.frames } : Machine β Ω).News := by
    refine ⟨h.journal, fun k r hk => ?_⟩
    rcases List.mem_cons.1 hk with hk | hk
    · exact absurd hk.symm (hg k r)
    · exact h.frames k r hk
  cases t with
  | effect | crash | once => exact ⟨h.journal, h.frames⟩
  | touch c g =>
    exact ⟨h.journal.touch fun v => g v ω, fun k r hk => (h.frames k r hk).of_extends he⟩
  | make v answer =>
    have hn : ({ expected := (s.alloc v).2.version (s.alloc v).1, created := true } : Entry β).News := by
      rintro w ⟨⟩
    exact ⟨h.journal.put hn, fun k r hk => (h.frames k r hk).of_extends he⟩
  | onSuccess | onSuccessOnce | onFailure | onRetry | loop =>
    apply push
    rintro k r ⟨⟩
  | orElse l r =>
    refine ⟨h.journal, fun k r' hk => ?_⟩
    rcases List.mem_cons.1 hk with hk | hk
    · cases hk
      exact h.journal.checkpoint
    · exact h.frames k r' hk
  | provide t g =>
    simp only [Machine.enter]
    cases g m.env ω with
    | error p => exact ⟨h.journal, h.frames⟩
    | ok r =>
      cases r with
      | error d => exact ⟨h.journal, h.frames⟩
      | ok env =>
        apply push
        rintro k r ⟨⟩

theorem News.unwind (h : m.News) (o : Outcome β) {fs : List (Frame β Ω)}
    (hfs : ∀ g ∈ fs, g ∈ m.frames) : (m.unwind ω o fs).News := by
  cases fs with
  | nil => cases o <;> exact ⟨h.journal, h.frames⟩
  | cons g fs =>
    obtain ⟨hg, hrest⟩ := List.forall_mem_cons.1 hfs
    have pop {x : Focus β Ω} {env : Any β} :
        ({ m with focus := x, env, frames := fs } : Machine β Ω).News :=
      ⟨h.journal, fun k r hk => h.frames k r (hrest _ hk)⟩
    cases o with
    | retry =>
      cases g with
      | orElse saved r =>
        exact ⟨(h.frames saved r hg).news, fun k r hk =>
          (h.frames k r (hrest _ hk)).of_extends (Journal.extends_rollback saved)⟩
      | onSuccess | onFailure | onRetry | restore => exact pop
    | success | failure | halt | interrupt => cases g <;> exact pop

theorem News.step (h : m.News) (hs : s.Sound) (hk : m.journal.Known s) :
    (m.step f s ω).1.News := by
  have he := (logged (m := m) (f := f) (s := s) (ω := ω)).extends hs hk
  unfold Machine.step at he ⊢
  cases hf : m.focus with
  | run t =>
    rw [hf] at he
    exact h.enter he
  | exit o => exact h.unwind o fun g hg => hg

end Machine

namespace Commit

variable {id : CommitId} {c c' : Commit β Ω} {s s' : Store β} {ω : Ω} {call : Call} {p : Point β Ω}
  {woken : List CommitId}

theorem Transition.news_of_version (h : c.Transition id s ω call p c' s' woken) (hk : c.Known s)
    (hp : c.phase = .busy call p) (hs : s.Sound) (hc : ∀ m, c.phase.attempt? = some m → m.News)
    {d : CellId} (hd : d ∈ s.cells) (hv : s'.version d ≠ s.version d) :
    ∃ m x v, p = .running m ∧ m.journal.entries[d]? = some x ∧ x.pending = some v ∧
      x.expected.value.same v = false := by
  cases h.reworked hk hp with
  | keep => exact absurd rfl hv
  | rewait l => exact absurd (l.version d) hv
  | @make m v =>
    rw [Store.version_alloc, if_neg] at hv
    · exact absurd rfl hv
    · rintro rfl
      exact hs.nextCell_notMem hd
  | @publish m w t k hm _ hpub =>
    subst hm
    rcases Journal.cell_publish hpub d with ⟨x, v, hx, hpen, -⟩ | ⟨-, e⟩
    · exact ⟨m, x, v, rfl, hx, hpen, (hc m (by rw [hp]; rfl)).journal d x hx v hpen⟩
    · exact absurd (by simp only [Store.version, e]) hv

end Commit

section

variable {h : History β Ω} {e : Engine β Ω} {id : CommitId} {c : Commit β Ω}

theorem Run.news (r : Run h e) (hc : e.commits[id]? = some c) :
    ∀ m, c.phase.attempt? = some m → m.News := by
  intro m hm
  refine r.each_attempt (P := fun _ _ _ _ _ m => m.News) ?_ ?_ (fun _ _ _ _ _ h => h) hc hm
  · intros
    exact Machine.news_start
  · intro h e i c call m r hc hp _ hm
    exact hm.step r.tracked.sound (r.tracked.known_attempt hc (by rw [hp]; rfl))

theorem Run.news_of_version (r : Run h e) {m : Move β Ω} (hm : e.admits m) {d : CellId}
    (hd : d ∈ e.store.cells) (hv : (e.act m).store.version d ≠ e.store.version d) :
    ∃ k b call x y v, m = .advance k ∧ e.commits[k]? = some b ∧ b.phase = .busy call (.running x) ∧
      x.journal.entries[d]? = some y ∧ y.pending = some v ∧ y.expected.value.same v = false := by
  have hs := Engine.reshaped hm
  generalize (e.act m).store = t at hs hv
  cases hs with
  | keep => exact absurd rfl hv
  | alloc =>
    rw [Store.version_alloc, if_neg] at hv
    · exact absurd rfl hv
    · rintro rfl
      exact r.tracked.sound.nextCell_notMem hd
  | drop hc => exact absurd ((r.tracked.known _ _ hc).sameVersions_drop.version d) hv
  | @turn k b c' call p s' woken hc hp ht =>
    obtain ⟨x, y, v, rfl, hy⟩ :=
      ht.news_of_version (r.tracked.known k b hc) hp r.tracked.sound (r.news hc) hd hv
    exact ⟨k, b, call, x, y, v, rfl, hc, hp, hy⟩

end

end TransactionalMemory
