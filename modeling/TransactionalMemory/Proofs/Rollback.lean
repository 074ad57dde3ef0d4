import TransactionalMemory.Proofs.Journals
import TransactionalMemory.Scenario.Val

/-! Going back to a checkpoint. Whatever has been done since, the writes that waited then wait again, and
no others do. Every cell that was touched since stays touched. -/

namespace TransactionalMemory

variable {β : Type} [Universe β] {Ω : Type}

namespace Journal

variable {j : Journal β} {s : Store β} {c d : CellId} {k : Checkpoint β}

theorem rollback_rollback (k' : Checkpoint β) : (j.rollback k).rollback k' = j.rollback k' := by
  rw [rollback, Journal.mk.injEq]
  apply Std.ExtTreeMap.ext_getElem?
  intro c
  simp only [Std.ExtTreeMap.getElem?_map, getElem?_rollback]
  cases j.entries[c]? <;> rfl

theorem rollback_extends : (j.rollback k).Extends j := by
  intro c x hx
  rw [getElem?_rollback, Option.map_eq_some_iff] at hx
  obtain ⟨y, hy, rfl⟩ := hx
  exact ⟨y.pending, hy⟩

theorem isValid_rollback : (j.rollback k).isValid s = j.isValid s := by
  rw [Bool.eq_iff_iff, isValid_iff, isValid_iff]
  simp [getElem?_rollback, Entry.isValid]

theorem awaited_rollback : (j.rollback k).awaited =
    j.awaited.map fun c x => { x with pending := (k[c]?).join } := by
  apply Std.ExtTreeMap.ext_getElem?
  intro c
  simp only [getElem?_awaited, getElem?_rollback, Std.ExtTreeMap.getElem?_map]
  cases j.entries[c]? <;> simp [Option.filter]

theorem watch_rollback (f : FiberId) (i : CommitId) : (j.rollback k).watch s f i = j.watch s f i := by
  have hsize : ∀ (m : Std.ExtTreeMap CellId (Entry β)) (g : CellId → Entry β → Entry β)
      (p : CellId → Bool), ((m.map g).filter fun c _ => p c).size = (m.filter fun c _ => p c).size := by
    intro m g p
    rw [← Std.ExtTreeMap.size_map (f := g) (t := m.filter fun c _ => p c)]
    congr 1
    apply Std.ExtTreeMap.ext_getElem?
    intro c
    cases h : m[c]? <;> simp [Std.ExtTreeMap.getElem?_filter, h, Option.filter]
  simp only [watch, awaited_rollback, hsize, Prod.mk.injEq, true_and]
  congr 1
  apply Std.ExtTreeMap.ext_getElem?
  intro c
  cases h : j.awaited[c]? <;> simp [h]

theorem creates_put {x : Entry β} (h : x.created = true ↔ j.Creates c) :
    (j.put c x).Creates d ↔ j.Creates d := by
  unfold Creates
  rw [getElem?_put]
  split
  · rename_i e
    subst e
    simpa [Creates] using h
  · rfl

theorem creates_entry : (j.entry s c).created = true ↔ j.Creates c := by
  cases h : j.entries[c]? <;> simp [entry, Creates, h]

theorem creates_touch (f : Any β → Except Panic (Access β)) :
    (j.touch s c f).2.Creates d ↔ j.Creates d := by
  obtain ⟨p, e⟩ := touch_eq_put (j := j) (s := s) (c := c) f
  rw [e]
  exact creates_put creates_entry

theorem creates_insertNew : (j.insertNew s c).Creates d ↔ d = c ∨ j.Creates d := by
  unfold Creates
  rw [insertNew, getElem?_put]
  split
  · rename_i e
    simp [e]
  · rename_i e
    simp [Ne.symm e]

theorem creates_rollback : (j.rollback k).Creates d ↔ j.Creates d :=
  ⟨(·.of_extends rollback_extends), (·.of_extends (extends_rollback k))⟩

end Journal

/-- A journal that is being worked on. -/
structure Bench (β : Type) [Universe β] where
  journal : Journal β
  store : Store β
  marks : List (Checkpoint β) := []
  made : List CellId := []

namespace Bench

def touch (x : Bench β) (c : CellId) (f : Any β → Except Panic (Access β)) : Bench β :=
  { x with journal := (x.journal.touch x.store c f).2 }

def make (x : Bench β) (v : Any β) : Bench β :=
  { x with
    journal := x.journal.insertNew (x.store.alloc v).2 x.store.nextCell
    store := (x.store.alloc v).2
    made := x.store.nextCell :: x.made }

def mark (x : Bench β) : Bench β := { x with marks := x.journal.checkpoint :: x.marks }

def back (x : Bench β) (k : Checkpoint β) (ks : List (Checkpoint β)) : Bench β :=
  { x with journal := x.journal.rollback k, marks := k :: ks }

/-- What can be done with a journal, and what others can do to the cells meanwhile. Whoever goes back to
a checkpoint gives up those taken since. -/
inductive Step (x : Bench β) : Bench β → Prop
  | touch (c : CellId) (f : Any β → Except Panic (Access β)) : c ∈ x.store.cells → Step x (x.touch c f)
  | make (v : Any β) : Step x (x.make v)
  | mark : Step x x.mark
  | leave {k : Checkpoint β} {ks : List (Checkpoint β)} : x.marks = k :: ks →
    Step x { x with marks := ks }
  | back {k : Checkpoint β} (inner : List (Checkpoint β)) {ks : List (Checkpoint β)} :
    x.marks = inner ++ k :: ks →
    Step x (x.back k ks)
  | others {s : Store β} : x.store.Later s → s.Sound → Step x { x with store := s }

inductive Leads (x : Bench β) : Bench β → Prop
  | refl : Leads x x
  | step {y z : Bench β} : Leads x y → Step y z → Leads x z

structure Sound (x : Bench β) : Prop where
  store : x.store.Sound
  journal : x.journal.Known x.store
  made : ∀ c, x.journal.Creates c ↔ c ∈ x.made

variable {x y z : Bench β}

theorem sound_start {s : Store β} (h : s.Sound) : Sound { journal := {}, store := s } where
  store := h
  journal := Journal.known_empty
  made c := by simp [Journal.Creates]

theorem Step.sound (h : x.Step y) (hx : x.Sound) : y.Sound := by
  cases h with
  | touch c f hc =>
    exact ⟨hx.store, Journal.known_touch hx.journal hx.store hc f,
      fun d => (Journal.creates_touch f).trans (hx.made d)⟩
  | make v =>
    have hs := hx.store.alloc v
    refine ⟨hs, Journal.known_put (hx.journal.later (hx.store.later_alloc v)) ?_, fun d => ?_⟩
    · exact ⟨(Store.mem_alloc v).2 (.inl rfl), hs.place _, .inl rfl⟩
    · exact Journal.creates_insertNew.trans ((or_congr_right (hx.made d)).trans List.mem_cons.symm)
  | mark | leave => exact ⟨hx.store, hx.journal, hx.made⟩
  | @back k =>
    exact ⟨hx.store, Journal.known_rollback hx.journal k,
      fun d => Journal.creates_rollback.trans (hx.made d)⟩
  | others hl hs => exact ⟨hs, hx.journal.later hl, hx.made⟩

theorem Step.extends (h : x.Step y) (hx : x.Sound) : x.journal.Extends y.journal := by
  cases h with
  | touch c f => exact Journal.extends_touch f
  | make v =>
    apply Journal.extends_put
    intro z hz
    exact absurd (hx.journal _ z hz).cell hx.store.nextCell_notMem
  | mark | leave | others => exact .refl
  | back => exact Journal.extends_rollback _

theorem Leads.sound (h : x.Leads y) (hx : x.Sound) : y.Sound := by
  induction h with
  | refl => exact hx
  | step _ hs ih => exact hs.sound ih

theorem Leads.extends (h : x.Leads y) (hx : x.Sound) : x.journal.Extends y.journal := by
  induction h with
  | refl => exact .refl
  | step h hs ih => exact ih.trans (hs.extends (h.sound hx))

theorem Leads.trans (h : x.Leads y) (h' : y.Leads z) : x.Leads z := by
  induction h' with
  | refl => exact h
  | step _ hs ih => exact ih.step hs

theorem Leads.of_mem_marks (h : x.Leads y) (hx : x.marks = []) {k : Checkpoint β}
    (hk : k ∈ y.marks) : ∃ z, x.Leads z ∧ k = z.journal.checkpoint ∧ z.Leads y := by
  induction h with
  | refl => simp [hx] at hk
  | @step y z h hs ih =>
    have old (hk : k ∈ y.marks) : ∃ w, x.Leads w ∧ k = w.journal.checkpoint ∧ w.Leads z := by
      obtain ⟨w, hw, e, hy⟩ := ih hk
      exact ⟨w, hw, e, hy.step hs⟩
    cases hs with
    | touch | make | others => exact old hk
    | mark =>
      rcases List.mem_cons.1 hk with rfl | hk
      · exact ⟨y, h, rfl, .step .refl .mark⟩
      · exact old hk
    | leave e => exact old (by rw [e]; exact List.mem_cons_of_mem _ hk)
    | back _ e => exact old (by rw [e]; exact List.mem_append_right _ hk)

end Bench

/-- Taken back to a checkpoint, a journal has just the writes that waited then. Each cell that had an
entry has that entry again. Each that was touched or made since has one that nothing is written to. It
counts for validation, and is waited for unless the cell was made for the journal. No checkpoint taken
meanwhile makes a difference. -/
theorem Bench.Leads.rolled_back {x y : Bench β} (h : x.Leads y) (hx : x.Sound) :
    let k := x.journal.checkpoint
    let j := y.journal.rollback k
    (∀ (c : CellId) (z : Entry β), x.journal.entries[c]? = some z → j.entries[c]? = some z) ∧
    (∀ (c : CellId) (z : Entry β), x.journal.entries[c]? = none → y.journal.entries[c]? = some z →
      j.entries[c]? = some { z with pending := none } ∧ (c ∈ j.awaited ↔ c ∉ y.made)) ∧
    (x.journal.Extends y.journal ∧ y.journal.Extends j ∧ j.Extends y.journal) ∧
    (∀ s, j.isValid s = y.journal.isValid s) ∧
    (∀ s f i, j.watch s f i = y.journal.watch s f i) ∧
    ∀ k', (y.journal.rollback k').rollback k = j := by
  intro k j
  have he := h.extends hx
  refine ⟨fun c z hz => ?_, fun c z hn hz => ?_,
    ⟨he, Journal.extends_rollback k, Journal.rollback_extends⟩, fun s => Journal.isValid_rollback,
    fun s f i => Journal.watch_rollback f i, fun k' => Journal.rollback_rollback k⟩
  · obtain ⟨p, hp⟩ := he c z hz
    rw [Journal.getElem?_rollback, Journal.getElem?_checkpoint, hp, hz]
    rfl
  · have hj : j.entries[c]? = some { z with pending := none } := by
      rw [Journal.getElem?_rollback, Journal.getElem?_checkpoint, hz, hn]
      rfl
    refine ⟨hj, ?_⟩
    rw [← (h.sound hx).made c, Journal.mem_awaited, Journal.Creates, hj, hz]
    simp

def started : Bench Scenario.Base :=
  { journal := {}
    store := ((({} : Store _).alloc ⟨.nat, (3 : Nat)⟩).2.alloc ⟨.nat, (0 : Nat)⟩).2 : Bench _ }.touch ⟨1⟩
      fun _ => .ok (.write ⟨.nat, (5 : Nat)⟩ .unit)

theorem rolled_back_detour : ∃ y : Bench Scenario.Base, started.Sound ∧ started.Leads y ∧
    y.made = [⟨3⟩] ∧ y.journal.isValid y.store = false ∧
    let j := y.journal.rollback started.journal.checkpoint
    j.entries[(⟨1⟩ : CellId)]? = started.journal.entries[(⟨1⟩ : CellId)]? ∧
      ⟨2⟩ ∈ j.awaited ∧ ⟨3⟩ ∈ j.entries ∧ ⟨3⟩ ∉ j.awaited ∧ j.isValid y.store = false := by
  -- The write is taken back by hand. Within another checkpoint the second cell is written to, a third one is
  -- made, and somebody else publishes the second one. The inner checkpoint is gone back to, and the first cell
  -- is written to once more.
  have hs : started.store.Sound := (Store.sound_empty.alloc _).alloc _
  have hx : started.Sound := by
    refine ⟨hs, Journal.known_touch Journal.known_empty hs (by decide +kernel) _, fun c => ?_⟩
    refine (Journal.creates_touch _).trans ?_
    simp [Journal.Creates, started, Bench.touch]
  let write (n : Nat) (_ : Any Scenario.Base) : Except Panic (Access Scenario.Base) :=
    .ok (.write ⟨.nat, n⟩ .unit)
  let x := ((started.touch ⟨1⟩ (write 3)).mark.touch ⟨2⟩ (write 9)).make ⟨.nat, (7 : Nat)⟩
  have hl : started.Leads x :=
    (((Bench.Leads.refl.step (.touch ⟨1⟩ (write 3) (by decide +kernel))).step .mark).step
      (.touch ⟨2⟩ (write 9) (by decide +kernel))).step (.make ⟨.nat, (7 : Nat)⟩)
  let other := (({} : Journal _).touch x.store ⟨2⟩ (write 4)).2
  let s : Store _ := { x.store.overlay (other.written x.store) with now := x.store.now + 1 }
  have hpub : other.publish x.store = .ok (_, s, _) := if_pos (by decide +kernel)
  have ho : other.Known x.store :=
    Journal.known_touch Journal.known_empty (hl.sound hx).store (by decide +kernel) _
  let y := ({ x with store := s }.back (started.touch ⟨1⟩ (write 3)).journal.checkpoint []).touch ⟨1⟩
    (write 8)
  have hy : started.Leads y :=
    ((hl.step (.others (Journal.later_publish hpub ho (hl.sound hx).store)
      (Journal.sound_publish hpub ho (hl.sound hx).store))).step (.back [] rfl)).step
      (.touch ⟨1⟩ (write 8) (by decide +kernel))
  obtain ⟨hold, hnew, -, hvalid, -⟩ := hy.rolled_back hx
  have hv : y.journal.isValid y.store = false := by decide +kernel
  have hmade : y.made = [⟨3⟩] := by decide +kernel
  have entry (c : CellId) (h : c ∈ y.journal.entries) : ∃ z, y.journal.entries[c]? = some z :=
    Option.isSome_iff_exists.1 (Std.ExtTreeMap.mem_iff_isSome_getElem?.1 h)
  obtain ⟨z₁, h₁⟩ := Option.isSome_iff_exists.1
    (show (started.journal.entries[(⟨1⟩ : CellId)]?).isSome by decide +kernel)
  obtain ⟨z₂, h₂⟩ := entry ⟨2⟩ (by decide +kernel)
  obtain ⟨z₃, h₃⟩ := entry ⟨3⟩ (by decide +kernel)
  have none₂ := Option.isNone_iff_eq_none.1
    (show (started.journal.entries[(⟨2⟩ : CellId)]?).isNone by decide +kernel)
  have none₃ := Option.isNone_iff_eq_none.1
    (show (started.journal.entries[(⟨3⟩ : CellId)]?).isNone by decide +kernel)
  refine ⟨y, hx, hy, hmade, hv, (hold _ z₁ h₁).trans h₁.symm, ?_, ?_, ?_, (hvalid _).trans hv⟩
  · exact (hnew _ z₂ none₂ h₂).2.2 (by rw [hmade]; decide)
  · exact Std.ExtTreeMap.mem_iff_isSome_getElem?.2 (by rw [(hnew _ z₃ none₃ h₃).1]; rfl)
  · exact fun h => (hnew _ z₃ none₃ h₃).2.1 h (by rw [hmade]; decide)

def Frame.mark? : Frame β Ω → Option (Checkpoint β)
  | .orElse saved _ => some saved
  | _ => none

namespace Machine

def bench (m : Machine β Ω) (s : Store β) (made : List CellId) : Bench β :=
  ⟨m.journal, s, m.frames.filterMap Frame.mark?, made⟩

variable {m : Machine β Ω} {f : FiberId} {s : Store β} {ω : Ω} {made : List CellId}

theorem leads_enter {t : Tree β Ω} (ht : m.focus = .run t) (hg : m.grounded s) : ∃ made',
    (m.bench s made).Leads ((m.enter f s ω t).1.bench (m.enter f s ω t).2.1 made') := by
  cases t with
  | effect | crash | once | onSuccess | onSuccessOnce | onFailure | onRetry | loop =>
    exact ⟨made, .refl⟩
  | touch c g => exact ⟨made, .step .refl (.touch c (fun v => g v ω) (mem_of_grounded hg ht))⟩
  | make v answer => exact ⟨s.nextCell :: made, .step .refl (.make v)⟩
  | orElse l r => exact ⟨made, .step .refl .mark⟩
  | provide t g =>
    simp only [enter]
    cases hg : g m.env ω with
    | error p => exact ⟨made, .refl⟩
    | ok r => cases r <;> exact ⟨made, .refl⟩

theorem leads_pop {g : Frame β Ω} {fs : List (Frame β Ω)} (h : m.frames = g :: fs)
    (focus : Focus β Ω) (env : Any β) : (m.bench s made).Leads
      (({ m with focus, env, frames := fs } : Machine β Ω).bench s made) := by
  -- To drop a frame is at most to give up its checkpoint.
  unfold bench
  rw [h]
  cases g with
  | orElse => exact .step .refl (.leave rfl)
  | onSuccess | onFailure | onRetry | restore => exact .refl

theorem leads_unwind (o : Outcome β) : (m.bench s made).Leads ((m.unwind ω o m.frames).bench s made) := by
  obtain ⟨focus, env, frames, j⟩ := m
  cases frames with
  | nil => cases o <;> exact .refl
  | cons g fs =>
    cases o with
    | retry =>
      cases g with
      | orElse saved r => exact .step (.step .refl (.back [] rfl)) (.leave rfl)
      | onSuccess | onFailure | onRetry | restore => exact leads_pop rfl _ _
    | success | failure | halt | interrupt => cases g <;> exact leads_pop rfl _ _

theorem leads_step (hg : m.grounded s) (made : List CellId) : ∃ made',
    (m.bench s made).Leads ((m.step f s ω).1.bench (m.step f s ω).2.1 made') := by
  unfold step
  cases hf : m.focus with
  | run t => exact leads_enter hf hg
  | exit o => exact ⟨made, leads_unwind o⟩

end Machine

section

variable {h : History β Ω} {e : Engine β Ω} {i : CommitId} {c : Commit β Ω} {m : Machine β Ω}

theorem Engine.store_step {call : Call} (hc : e.commits[i]? = some c)
    (hp : c.phase = .busy call (.running m)) (ho : m.outcome? = none) :
    (e.act (.advance i)).store = (m.step c.fiber e.store e.world).2.1 := by
  simp [act, advance, hc, hp, Commit.run, ho, put]

theorem Run.leads (r : Run h e) (hc : e.commits[i]? = some c) (hm : c.phase.attempt? = some m) :
    ∃ s made, s.Sound ∧ Bench.Leads { journal := {}, store := s } (m.bench e.store made) := by
  refine r.each_attempt (P := fun h e _ _ _ m => Run h e → ∃ s made, s.Sound ∧
    Bench.Leads { journal := {}, store := s } (m.bench e.store made)) ?_ ?_ ?_ hc hm r
  · intro h e i c call _ _ _ r'
    exact ⟨_, [], r'.tracked.sound, .refl⟩
  · intro h e i c call m r hc hp ho ih r'
    obtain ⟨s, made, hs, hl⟩ := ih r
    cases r' with
    | next _ ha =>
      obtain ⟨made', hl'⟩ := Machine.leads_step (f := c.fiber) (ω := e.world)
        (Engine.grounded_of_admits ha hc hp) made
      rw [Engine.store_step hc hp ho]
      exact ⟨s, made', hs, hl.trans hl'⟩
  · intro h e i c m x r hx _ _ _ ih r'
    obtain ⟨s, made, hs, hl⟩ := ih r
    exact ⟨s, made, hs, hl.step (.others ((Engine.reshaped hx).later r.tracked) r'.tracked.sound)⟩

/-- The checkpoint that a frame of an attempt goes back to is that of the journal as it was at some
moment of the attempt, and everything since is work on that journal. -/
theorem Run.leads_of_frame (r : Run h e) (hc : e.commits[i]? = some c)
    (hm : c.phase.attempt? = some m) {k : Checkpoint β} {t : Tree β Ω} (hk : .orElse k t ∈ m.frames) :
    ∃ (x : Bench β) (made : List CellId), x.Sound ∧ k = x.journal.checkpoint ∧ x.Leads (m.bench e.store made) := by
  obtain ⟨s, made, hs, hl⟩ := r.leads hc hm
  obtain ⟨x, hx, e, hx'⟩ := hl.of_mem_marks rfl (List.mem_filterMap.2 ⟨_, hk, rfl⟩)
  exact ⟨x, made, hx.sound (Bench.sound_start hs), e, hx'⟩

end

end TransactionalMemory
