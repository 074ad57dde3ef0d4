import TransactionalMemory.Proofs.Growth
import TransactionalMemory.Proofs.Move

namespace TransactionalMemory

variable {β : Type} [Universe β] {Ω : Type}

namespace Journal

variable {j : Journal β} {s : Store β} {c : CellId}

theorem sameVersions_leave {f : FiberId} {cells : Std.ExtTreeMap CellId (Entry β)}
    (h : ∀ c ∈ cells, c ∈ s.cells) : s.SameVersions (leave s f cells) := by
  apply Store.sameVersions_overlay
  intro c d hd
  rw [Std.ExtTreeMap.getElem?_map, Option.map_eq_some_iff] at hd
  obtain ⟨x, hx, rfl⟩ := hd
  exact ⟨h c (Std.ExtTreeMap.mem_iff_isSome_getElem?.2 (by simp [hx])), rfl⟩

theorem Known.sameVersions_unwatch (h : j.Known s) (f : FiberId) : s.SameVersions (j.unwatch s f) :=
  sameVersions_leave fun _ => h.mem

theorem Known.sameVersions_untracked (h : j.Known s) (f : FiberId) (k : Journal β) :
    s.SameVersions (leave s f (j.untracked k)) := by
  apply sameVersions_leave
  intro c hc
  have ha := Std.ExtTreeMap.mem_of_mem_filter hc
  obtain ⟨x, hx, -⟩ := (mem_awaited j c).1 ha
  exact (h c x hx).cell

theorem Known.sameVersions_watch (h : j.Known s) (f : FiberId) (k : CommitId) :
    s.SameVersions (j.watch s f k).2 := by
  apply Store.sameVersions_overlay
  intro c d hd
  rw [Std.ExtTreeMap.getElem?_map, Option.map_eq_some_iff] at hd
  obtain ⟨x, hx, rfl⟩ := hd
  rw [getElem?_awaited, Option.filter_eq_some_iff] at hx
  exact ⟨(h c x hx.1).cell, rfl⟩

section Publish

variable {w : Waiting} {t : Store β} {k : Journal β}

theorem publish_eq_ok (h : j.publish s = .ok (w, t, k)) :
    j.isValid s ∧ w = waitingFor s (j.written s) ∧
      t = { s.overlay (j.written s) with now := s.now + 1 } := by
  unfold publish at h
  split at h
  · rename_i hv
    cases h
    exact ⟨hv, rfl, rfl⟩
  · cases h

theorem cell_publish_of_pending (h : j.publish s = .ok (w, t, k)) {x : Entry β} {v : Any β}
    (hx : j.entries[c]? = some x) (hv : x.pending = some v) : t.cell c = ⟨⟨c, s.now, v⟩, ∅⟩ := by
  obtain ⟨-, -, rfl⟩ := publish_eq_ok h
  have e : (j.written s)[c]? = some ⟨⟨c, s.now, v⟩, ∅⟩ := by simp [getElem?_written, hx, hv]
  show (s.overlay (j.written s)).cell c = _
  rw [Store.cell_overlay, e]
  rfl

theorem cell_publish_of_not (h : j.publish s = .ok (w, t, k))
    (hc : ∀ x, j.entries[c]? = some x → x.pending = none) : t.cell c = s.cell c := by
  obtain ⟨-, -, rfl⟩ := publish_eq_ok h
  have e : (j.written s)[c]? = none := by
    rw [getElem?_written]
    cases hx : j.entries[c]? with
    | none => rfl
    | some x => simp [hc x hx]
  show (s.overlay (j.written s)).cell c = _
  rw [Store.cell_overlay, e]
  rfl

theorem cell_publish (h : j.publish s = .ok (w, t, k)) (c : CellId) :
    (∃ x v, j.entries[c]? = some x ∧ x.pending = some v ∧ t.cell c = ⟨⟨c, s.now, v⟩, ∅⟩) ∨
      (∀ x, j.entries[c]? = some x → x.pending = none) ∧ t.cell c = s.cell c := by
  by_cases hc : ∃ x v, j.entries[c]? = some x ∧ x.pending = some v
  · obtain ⟨x, v, hx, hv⟩ := hc
    exact .inl ⟨x, v, hx, hv, cell_publish_of_pending h hx hv⟩
  · have hc' : ∀ x, j.entries[c]? = some x → x.pending = none := by
      intro x hx
      cases hv : x.pending with
      | none => rfl
      | some v => exact absurd ⟨x, v, hx, hv⟩ hc
    exact .inr ⟨hc', cell_publish_of_not h hc'⟩

theorem mem_publish (h : j.publish s = .ok (w, t, k)) (hk : j.Known s) : c ∈ t.cells ↔ c ∈ s.cells := by
  obtain ⟨-, -, rfl⟩ := publish_eq_ok h
  show c ∈ (s.overlay (j.written s)).cells ↔ _
  simp only [Store.overlay, Std.ExtTreeMap.mem_union_iff]
  refine ⟨?_, .inl⟩
  rintro (hc | hc)
  · exact hc
  · exact hk.mem (Std.ExtTreeMap.mem_of_mem_filterMap hc)

theorem sound_publish (h : j.publish s = .ok (w, t, k)) (hk : j.Known s) (hs : s.Sound) : t.Sound := by
  have hn : t.nextCell = s.nextCell ∧ t.now = s.now + 1 := by
    obtain ⟨-, -, rfl⟩ := publish_eq_ok h
    exact ⟨rfl, rfl⟩
  constructor
  case made =>
    intro c hc
    rw [hn.1]
    exact hs.made c ((mem_publish h hk).1 hc)
  case place =>
    intro c
    rcases cell_publish h c with ⟨x, v, -, -, e⟩ | ⟨-, e⟩
    · simp only [Store.version, e]
    · simp only [Store.version, e]
      exact hs.place c
  case past =>
    intro c
    rw [hn.2]
    rcases cell_publish h c with ⟨x, v, -, -, e⟩ | ⟨-, e⟩
    · simp only [Store.version, e]
      exact Nat.lt_succ_self _
    · simp only [Store.version, e]
      exact Nat.lt_succ_of_lt (hs.past c)

theorem later_publish (h : j.publish s = .ok (w, t, k)) (hk : j.Known s) (hs : s.Sound) :
    s.Later t where
  cells c hc := (mem_publish h hk).2 hc
  version c hc := by
    rcases cell_publish h c with ⟨x, v, -, -, e⟩ | ⟨-, e⟩
    · refine .inr ?_
      have := hs.past c
      simpa only [Store.version, e] using this
    · exact .inl (by simp only [Store.version, e])

end Publish
end Journal

namespace Machine

inductive Logged (m : Machine β Ω) (s : Store β) : Journal β → Store β → Prop
  | keep : Logged m s m.journal s
  | touch {c : CellId} {g : Any β → Code Ω (Access β)} (f : Any β → Except Panic (Access β)) :
    m.focus = .run (.touch c g) → Logged m s (m.journal.touch s c f).2 s
  | make {v : Any β} {answer : CellId → Any β} : m.focus = .run (.make v answer) →
    Logged m s (m.journal.insertNew (s.alloc v).2 s.nextCell) (s.alloc v).2
  | rollback (k : Checkpoint β) : Logged m s (m.journal.rollback k) s

variable {m : Machine β Ω} {f : FiberId} {s : Store β} {ω : Ω}

theorem logged_enter {t : Tree β Ω} (ht : m.focus = .run t) :
    Logged m s (m.enter f s ω t).1.journal (m.enter f s ω t).2.1 := by
  cases t with
  | effect g | crash p | once v | onSuccess t k | onSuccessOnce t k | onFailure t k | onRetry t k
  | orElse l r | loop t judge => exact .keep
  | touch c g => exact .touch (fun v => g v ω) ht
  | make v answer => exact .make ht
  | provide t g =>
    simp only [enter]
    cases hg : g m.env ω with
    | error p => exact .keep
    | ok r => cases r <;> exact .keep

theorem logged_unwind (o : Outcome β) (fs : List (Frame β Ω)) :
    Logged m s (m.unwind ω o fs).journal s := by
  unfold unwind
  split <;> try exact .keep
  exact .rollback _

theorem logged : Logged m s (m.step f s ω).1.journal (m.step f s ω).2.1 := by
  unfold step
  cases hf : m.focus with
  | run t => exact logged_enter hf
  | exit o => exact logged_unwind o m.frames

theorem Logged.store {j : Journal β} {t : Store β} (h : Logged m s j t) :
    t = s ∨ ∃ v, t = (s.alloc v).2 := by
  cases h with
  | keep | touch | rollback => exact .inl rfl
  | make => exact .inr ⟨_, rfl⟩

theorem mem_of_grounded {c : CellId} {g : Any β → Code Ω (Access β)} (h : m.grounded s)
    (hf : m.focus = .run (.touch c g)) : c ∈ s.cells := by
  simpa [grounded, hf] using h

theorem Logged.known {j : Journal β} {t : Store β} (h : Logged m s j t) (hg : m.grounded s)
    (hs : s.Sound) (hk : m.journal.Known s) : j.Known t := by
  cases h with
  | keep => exact hk
  | touch f hf => exact Journal.known_touch hk hs (mem_of_grounded hg hf) f
  | @make v answer hf =>
    have hs' := hs.alloc v
    apply Journal.known_put (hk.later (hs.later_alloc v))
    exact ⟨(Store.mem_alloc v).2 (.inl rfl), hs'.place _, .inl rfl⟩
  | rollback k => exact Journal.known_rollback hk k

theorem Logged.extends {j : Journal β} {t : Store β} (h : Logged m s j t) (hs : s.Sound)
    (hk : m.journal.Known s) : m.journal.Extends j := by
  cases h with
  | keep => exact .refl
  | touch f hf => exact Journal.extends_touch f
  | make hf =>
    apply Journal.extends_put
    intro y hy
    exact absurd (hk _ y hy).cell hs.nextCell_notMem
  | rollback k => exact Journal.extends_rollback k

theorem Logged.creates {j : Journal β} {t : Store β} {c : CellId} (h : Logged m s j t)
    (hs : s.Sound) (hc : j.Creates c) : m.journal.Creates c ∨ c ∉ s.cells := by
  obtain ⟨x, hx, hcr⟩ := hc
  cases h with
  | keep => exact .inl ⟨x, hx, hcr⟩
  | @touch d g f hf =>
    obtain ⟨p, e⟩ := Journal.touch_eq_put (j := m.journal) (s := s) (c := d) f
    rw [e, Journal.getElem?_put] at hx
    split at hx
    · rename_i hd
      subst hd
      cases hx
      cases hy : m.journal.entries[d]? with
      | none => simp [Journal.entry, hy] at hcr
      | some y =>
        rw [Journal.entry_eq_of_getElem? hy] at hcr
        exact .inl ⟨y, hy, hcr⟩
    · exact .inl ⟨x, hx, hcr⟩
  | make hf =>
    rw [Journal.insertNew, Journal.getElem?_put] at hx
    split at hx
    · rename_i hd
      exact .inr (hd ▸ hs.nextCell_notMem)
    · exact .inl ⟨x, hx, hcr⟩
  | rollback k =>
    rw [Journal.getElem?_rollback, Option.map_eq_some_iff] at hx
    obtain ⟨y, hy, rfl⟩ := hx
    exact .inl ⟨y, hy, hcr⟩

end Machine

def Phase.attempt? : Phase β Ω → Option (Machine β Ω)
  | .busy _ (.running m) => some m
  | _ => none

def Phase.journal? : Phase β Ω → Option (Journal β)
  | .busy _ (.running m) => some m.journal
  | .busy _ (.parking j _) => some j
  | _ => none

theorem Phase.journal?_of_attempt? {p : Phase β Ω} {m : Machine β Ω} (h : p.attempt? = some m) :
    p.journal? = some m.journal := by
  unfold Phase.attempt? at h
  split at h
  · cases h
    rfl
  · cases h

namespace Commit

def Known (c : Commit β Ω) (s : Store β) : Prop :=
  (∀ j, c.suspended = some j → j.Known s) ∧ ∀ j, c.phase.journal? = some j → j.Known s

variable {id : CommitId} {c c' : Commit β Ω} {s s' : Store β} {ω : Ω} {call : Call} {p : Point β Ω}
  {woken : List CommitId}

theorem Known.later (h : c.Known s) (l : s.Later s') : c.Known s' :=
  ⟨fun j hj => (h.1 j hj).later l, fun j hj => (h.2 j hj).later l⟩

theorem Known.sameVersions_release (h : c.Known s) : s.SameVersions (c.release s).2 := by
  unfold release
  cases hs : c.suspended with
  | none => exact .refl
  | some j => exact (h.1 j hs).sameVersions_unwatch c.fiber

theorem Known.sameVersions_drop (h : c.Known s) : s.SameVersions (c.drop s).2 :=
  h.sameVersions_release

theorem Known.sameVersions_finish (h : c.Known s) (call : Call) (r : Result β) :
    s.SameVersions (c.finish call s r).2 := by
  cases call <;> exact h.sameVersions_release

theorem Known.sameVersions_follow (h : c.Known s) {j : Journal β} (hj : j.Known s) :
    s.SameVersions (c.follow id s j).2 := by
  unfold follow
  cases hs : c.suspended with
  | none => exact hj.sameVersions_watch c.fiber id
  | some k =>
    have l := (h.1 k hs).sameVersions_untracked c.fiber j
    exact l.trans ((hj.later l.later).sameVersions_watch c.fiber id)

@[simp] theorem suspended_release (c : Commit β Ω) (s : Store β) :
    (c.release s).1 = { c with suspended := none } := by
  unfold release
  cases hs : c.suspended with
  | none => cases c; cases hs; rfl
  | some j => rfl

theorem drop_fst (c : Commit β Ω) (s : Store β) :
    (c.drop s).1 = { c with suspended := none, held := false } := by
  simp only [drop, suspended_release]

theorem finish_fst (c : Commit β Ω) (s : Store β) (call : Call) (r : Result β) :
    (c.finish call s r).1 = { c with
      suspended := none, completed := true, held := c.held && call matches .poll _
      phase := .answered (.ready r) } := by
  cases call with
  | poll w => simp only [finish, suspended_release, answer, Bool.and_true]
  | sync => simp only [finish, drop, suspended_release, answer, Bool.and_false]

inductive Reworked (c : Commit β Ω) (p : Point β Ω) (s : Store β) : Store β → Prop
  | keep : Reworked c p s s
  | rewait {t : Store β} : s.SameVersions t → Reworked c p s t
  | make {m : Machine β Ω} {v : Any β} : p = .running m → Reworked c p s (s.alloc v).2
  | publish {m : Machine β Ω} {w : Waiting} {t : Store β} {k : Journal β} : p = .running m →
    c.signals.state = .running → m.journal.publish s = .ok (w, t, k) → Reworked c p s t

theorem Transition.reworked (h : c.Transition id s ω call p c' s' woken) (hk : c.Known s)
    (hp : c.phase = .busy call p) : Reworked c p s s' := by
  cases h with
  | stop | stall | resume | sleep | begin | giveUp | attempt | launch | rerun | discard | lose
  | conclude | skip | tell | wake | rest | stir => exact .keep
  | leave => exact .rewait (hk.sameVersions_finish call _)
  | finish => exact .rewait (hk.sameVersions_finish call _)
  | refuse => exact .rewait hk.sameVersions_drop
  | @park w m ho hv =>
    exact .rewait (hk.sameVersions_follow (hk.2 m.journal (by rw [hp]; rfl)))
  | @step _ m ho =>
    rcases (Machine.logged (m := m) (f := c.fiber) (s := s) (ω := ω)).store with e | ⟨v, e⟩
    · rw [e]
      exact .keep
    · rw [e]
      exact .make rfl
  | publish ho hr hw hs hpub => exact .publish rfl hs hpub

theorem Reworked.sound (h : Reworked c p s s') (hs : s.Sound)
    (hk : ∀ m, p = .running m → m.journal.Known s) : s'.Sound := by
  cases h with
  | keep => exact hs
  | rewait l => exact l.sound hs
  | make => exact hs.alloc _
  | publish hp _ hpub => exact Journal.sound_publish hpub (hk _ hp) hs

theorem Reworked.later (h : Reworked c p s s') (hs : s.Sound)
    (hk : ∀ m, p = .running m → m.journal.Known s) : s.Later s' := by
  cases h with
  | keep => exact .refl
  | rewait l => exact l.later
  | make => exact hs.later_alloc _
  | publish hp _ hpub => exact Journal.later_publish hpub (hk _ hp) hs

theorem Transition.version_eq (h : c.Transition id s ω call p c' s' woken) (hk : c.Known s)
    (hp : c.phase = .busy call p) (hs : s.Sound) :
    (∀ x ∈ s.cells, s'.version x = s.version x) ∨
      c.signals.state = .running ∧ c'.signals.state = .done ∧
        ∃ r w, c'.phase = .busy call (.published r w) := by
  cases h with
  | stop | stall | resume | sleep | begin | giveUp | attempt | launch | rerun | discard | lose
  | conclude | skip | tell | wake | rest | stir => exact .inl fun x _ => rfl
  | leave => exact .inl fun x _ => (hk.sameVersions_finish call _).version x
  | finish => exact .inl fun x _ => (hk.sameVersions_finish call _).version x
  | refuse => exact .inl fun x _ => hk.sameVersions_drop.version x
  | @park w m ho hv =>
    exact .inl fun x _ => (hk.sameVersions_follow (hk.2 m.journal (by rw [hp]; rfl))).version x
  | @step _ m ho =>
    refine .inl fun x hx => ?_
    rcases (Machine.logged (m := m) (f := c.fiber) (s := s) (ω := ω)).store with e | ⟨v, e⟩
    · rw [e]
    · rw [e, Store.version_alloc, if_neg]
      rintro rfl
      exact hs.nextCell_notMem hx
  | publish ho hr hw hs hpub => exact .inr ⟨hs, rfl, _, _, rfl⟩

theorem Transition.known (h : c.Transition id s ω call p c' s' woken) (hk : c.Known s)
    (hp : c.phase = .busy call p) (hs : s.Sound)
    (hg : ∀ m, p = .running m → m.grounded s) : c'.Known s' := by
  have hr := h.reworked hk hp
  have hj : ∀ m, p = .running m → m.journal.Known s := by
    rintro m rfl
    exact hk.2 m.journal (by rw [hp]; rfl)
  have hl := hr.later hs hj
  cases h with
  | stop | resume | sleep | begin | giveUp | attempt | rerun | discard | lose
  | conclude | publish | skip | tell | wake => exact ⟨(hk.later hl).1, nofun⟩
  | stall => exact hk.later hl
  | launch =>
    refine ⟨hk.1, ?_⟩
    rintro j hj
    cases hj
    exact Journal.known_empty
  | leave | finish =>
    rw [finish_fst]
    exact ⟨nofun, nofun⟩
  | refuse =>
    rw [drop_fst]
    exact ⟨nofun, nofun⟩
  | park ho hv =>
    refine ⟨nofun, ?_⟩
    rintro j hj'
    cases hj'
    exact (hj _ rfl).later hl
  | @step _ m ho =>
    refine ⟨(hk.later hl).1, ?_⟩
    rintro j hj'
    cases hj'
    exact Machine.logged.known (hg m rfl) hs (hj m rfl)
  | rest hv =>
    refine ⟨?_, nofun⟩
    rintro k hk'
    cases hk'
    exact hk.2 _ (by rw [hp]; rfl)
  | stir hv =>
    refine ⟨?_, nofun⟩
    rintro k hk'
    cases hk'
    exact hk.2 _ (by rw [hp]; rfl)

theorem Transition.frame (h : c.Transition id s ω call p c' s' woken) :
    c'.tree = c.tree ∧ c'.valueTy = c.valueTy ∧ c'.fiber = c.fiber := by
  cases h with
  | leave | finish =>
    rw [finish_fst]
    exact ⟨rfl, rfl, rfl⟩
  | refuse =>
    rw [drop_fst]
    exact ⟨rfl, rfl, rfl⟩
  | stop | stall | resume | sleep | begin | giveUp | attempt | launch | step | park | rerun | discard
  | lose | conclude | publish | skip | tell | wake | rest | stir => exact ⟨rfl, rfl, rfl⟩

end Commit

namespace Engine

structure Tracked (e : Engine β Ω) : Prop where
  sound : e.store.Sound
  made : ∀ i ∈ e.commits, i.number < e.nextCommit.number
  known : ∀ (i : CommitId) (c : Commit β Ω), e.commits[i]? = some c → c.Known e.store

variable {e : Engine β Ω} {m : Move β Ω} {i : CommitId}

theorem Moved.frame {c c' : Commit β Ω} (h : Moved e i m c c') : c'.tree = c.tree ∧ c'.valueTy = c.valueTy ∧
    ((∀ f, m ≠ .setFiber i f) → c'.fiber = c.fiber) := by
  cases h with
  | setFiber => exact ⟨rfl, rfl, fun hn => absurd rfl (hn _)⟩
  | drop =>
    rw [Commit.drop_fst]
    exact ⟨rfl, rfl, fun _ => rfl⟩
  | turn _ ht => exact ⟨ht.frame.1, ht.frame.2.1, fun _ => ht.frame.2.2⟩
  | keep | setScheduler | setWatched | poll | refuse | runSync | settle | interrupt =>
    exact ⟨rfl, rfl, fun _ => rfl⟩

theorem Tracked.known_attempt (h : e.Tracked) {c : Commit β Ω} (hc : e.commits[i]? = some c)
    {x : Machine β Ω} (hx : c.phase.attempt? = some x) : x.journal.Known e.store :=
  (h.known i c hc).2 _ (Phase.journal?_of_attempt? hx)

theorem Tracked.ne_nextCommit (h : e.Tracked) {c : Commit β Ω} (hc : e.commits[i]? = some c) :
    i ≠ e.nextCommit := by
  rintro rfl
  exact Nat.lt_irrefl _ (h.made _ (Std.ExtTreeMap.mem_iff_isSome_getElem?.2 (by simp [hc])))

theorem Tracked.nextCommit_eq_none (h : e.Tracked) : e.commits[e.nextCommit]? = none := by
  cases hc : e.commits[e.nextCommit]? with
  | none => rfl
  | some c => exact absurd rfl (h.ne_nextCommit hc)

theorem Reshaped.sound {t : Store β} (h : Reshaped e m t) (he : e.Tracked) : t.Sound := by
  cases h with
  | keep => exact he.sound
  | alloc => exact he.sound.alloc _
  | drop hc _ _ => exact (he.known _ _ hc).sameVersions_drop.sound he.sound
  | turn hc hp ht =>
    have hk := he.known _ _ hc
    refine (ht.reworked hk hp).sound he.sound ?_
    rintro m rfl
    exact hk.2 _ (by rw [hp]; rfl)

theorem Reshaped.later {t : Store β} (h : Reshaped e m t) (he : e.Tracked) : e.store.Later t := by
  cases h with
  | keep => exact .refl
  | alloc => exact he.sound.later_alloc _
  | drop hc _ _ => exact (he.known _ _ hc).sameVersions_drop.later
  | turn hc hp ht =>
    have hk := he.known _ _ hc
    refine (ht.reworked hk hp).later he.sound ?_
    rintro m rfl
    exact hk.2 _ (by rw [hp]; rfl)

theorem grounded_of_admits {c : Commit β Ω} {call : Call} {x : Machine β Ω}
    (hm : e.admits (.advance i)) (hc : e.commits[i]? = some c)
    (hp : c.phase = .busy call (.running x)) : x.grounded e.store := by
  simpa [admits, hc, hp] using hm

theorem Tracked.act (he : e.Tracked) (hm : e.admits m) : (e.act m).Tracked where
  sound := (reshaped hm).sound he
  made := by
    intro i hi
    obtain ⟨c', hc'⟩ := Option.isSome_iff_exists.1 (Std.ExtTreeMap.mem_iff_isSome_getElem?.1 hi)
    cases hc : e.commits[i]? with
    | none =>
      obtain ⟨t, E, A, s, rfl, rfl, -⟩ := fresh_of_act hm hc hc'
      exact Nat.lt_succ_self _
    | some c =>
      have := he.made i (Std.ExtTreeMap.mem_iff_isSome_getElem?.2 (by simp [hc]))
      rcases nextCommit_act hm with h | ⟨-, h⟩
      · rwa [h]
      · rw [h]
        exact Nat.lt_succ_of_lt this
  known := by
    intro i c₂ hc₂
    cases hc : e.commits[i]? with
    | none =>
      obtain ⟨t, E, A, s, rfl, rfl, rfl⟩ := fresh_of_act hm hc hc₂
      exact ⟨nofun, nofun⟩
    | some c =>
      have hk := he.known i c hc
      have hl := (reshaped hm).later he
      obtain ⟨c', d, hmv, hd, hc'⟩ := moved hm hc (he.ne_nextCommit hc)
      obtain rfl : c₂ = d := Option.some.inj (hc₂.symm.trans hc')
      have hk' : c'.Known (e.act m).store := by
        cases hmv with
        | keep | setFiber | setScheduler | setWatched | interrupt => exact hk.later hl
        | poll | refuse | runSync | settle => exact ⟨(hk.later hl).1, nofun⟩
        | drop =>
          rw [Commit.drop_fst]
          exact ⟨nofun, (hk.later hl).2⟩
        | turn hp ht =>
          refine ht.known hk hp he.sound ?_
          rintro x rfl
          exact grounded_of_admits hm hc hp
      obtain ⟨g, rfl, -⟩ := hd.frame
      exact hk'

end Engine

theorem Run.tracked {h : History β Ω} {e : Engine β Ω} (r : Run h e) : e.Tracked := by
  induction r with
  | start ω => exact ⟨Store.sound_empty, by simp, by simp⟩
  | next r hm ih => exact ih.act hm

/-- What new commits have, and what moves and callbacks preserve, all commits have at every moment. -/
theorem Run.each {P : History β Ω → Engine β Ω → CommitId → Commit β Ω → Prop}
    (new : ∀ {h e t E A f s}, Run h e → P ((e, .commit t E A s) :: h) (e.act (.commit t E A s))
      e.nextCommit { tree := t, errorTy := E, valueTy := A, fiber := f, scheduler := s })
    (move : ∀ {h e m i c c'}, Run h e → e.admits m → e.commits[i]? = some c → P h e i c →
      Engine.Moved e i m c c' → P ((e, m) :: h) (e.act m) i c')
    (heard : ∀ {h e i c g}, g.state = c.signals.state → P h e i c → P h e i { c with signals := g })
    {h : History β Ω} {e : Engine β Ω} (r : Run h e) {i : CommitId} {c : Commit β Ω}
    (hc : e.commits[i]? = some c) : P h e i c := by
  induction r generalizing c with
  | start ω => simp at hc
  | @next h e m r hm ih =>
    cases hd : e.commits[i]? with
    | none =>
      obtain ⟨_, _, _, _, rfl, rfl, rfl⟩ := Engine.fresh_of_act hm hd hc
      exact new r
    | some d =>
      obtain ⟨c', b, hmv, hb, hc'⟩ := Engine.moved hm hd (r.tracked.ne_nextCommit hd)
      obtain rfl : c = b := Option.some.inj (hc.symm.trans hc')
      obtain ⟨g, rfl, hg⟩ := hb.frame
      exact heard hg (move r hm hd (ih hd) hmv)

/-- What an attempt has when it is launched, and what its steps and the moves of others preserve, it has
as long as it is under way. -/
theorem Run.each_attempt
    {P : History β Ω → Engine β Ω → CommitId → Tree β Ω → FiberId → Machine β Ω → Prop}
    (launch : ∀ {h e i c call}, Run h e → e.commits[i]? = some c → c.phase = .busy call .launching →
      P ((e, .advance i) :: h) (e.act (.advance i)) i c.tree c.fiber (.start c.tree .unit))
    (step : ∀ {h e i c call m}, Run h e → e.commits[i]? = some c →
      c.phase = .busy call (.running m) → m.outcome? = none → P h e i c.tree c.fiber m →
      P ((e, .advance i) :: h) (e.act (.advance i)) i c.tree c.fiber
        (m.step c.fiber e.store e.world).1)
    (other : ∀ {h e i c m x}, Run h e → e.admits x → x ≠ .advance i → e.commits[i]? = some c →
      c.phase.attempt? = some m → P h e i c.tree c.fiber m →
      P ((e, x) :: h) (e.act x) i c.tree c.fiber m)
    {h : History β Ω} {e : Engine β Ω} (r : Run h e) {i : CommitId} {c : Commit β Ω}
    (hc : e.commits[i]? = some c) {m : Machine β Ω} (hm : c.phase.attempt? = some m) :
    P h e i c.tree c.fiber m := by
  refine r.each (P := fun h e i c => ∀ m, c.phase.attempt? = some m → P h e i c.tree c.fiber m)
    ?_ ?_ (fun _ h => h) hc m hm
  · intro h e t E A f s _ m hm
    cases hm
  · intro h e x i c c' r hx hc ih hmv
    have idle (hi : c.phase = .idle) (m : Machine β Ω) : c.phase.attempt? ≠ some m := by
      rw [hi]
      exact nofun
    cases hmv with
    | keep hne => exact fun m hm => other r hx hne hc hm (ih m hm)
    | setScheduler | setWatched | interrupt => exact fun m hm => other (c := c) r hx nofun hc hm (ih m hm)
    | poll | refuse | runSync | settle => exact nofun
    | setFiber _ hi => exact fun m hm => absurd hm (idle hi m)
    | drop _ hi =>
      rw [Commit.drop_fst]
      exact fun m hm => absurd hm (idle hi m)
    | turn hp ht =>
      generalize (e.act (.advance i)).store = s at ht
      cases ht with
      | stop | resume | sleep | begin | giveUp | attempt | park | rerun | discard | lose | conclude
      | publish | skip | tell | wake | rest | stir => exact nofun
      | stall =>
        rw [hp]
        exact nofun
      | leave | finish =>
        rw [Commit.finish_fst]
        exact nofun
      | refuse =>
        rw [Commit.drop_fst]
        exact nofun
      | launch =>
        rintro m ⟨⟩
        exact launch (c := c) r hc hp
      | @step _ x ho =>
        rintro m ⟨⟩
        exact step (c := c) r hc hp ho (ih x (by rw [hp]; rfl))

end TransactionalMemory
