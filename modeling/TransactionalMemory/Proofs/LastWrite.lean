import TransactionalMemory.Proofs.Equality
import TransactionalMemory.Proofs.Ringing
import TransactionalMemory.Proofs.Rollback
import TransactionalMemory.Proofs.Snapshot

namespace TransactionalMemory

variable {β : Type} [Universe β] {Ω : Type}

namespace Entry

/-- The states of an entry, the latest first: as it was made from a version, after a write, or taken back
to what was pending in a state before. -/
inductive Edited (v : Version β) : List (Entry β) → Prop
  | made (created : Bool) : Edited v [{ expected := v, created }]
  | write {x y : Entry β} {l : List (Entry β)} {a : Any β} : Edited v (x :: l) → x.set a = .ok y →
    Edited v (y :: x :: l)
  | restore {x z : Entry β} {l : List (Entry β)} : Edited v (x :: l) → z ∈ x :: l →
    Edited v ({ x with pending := z.pending } :: x :: l)

structure Sane (x : Entry β) (v : Version β) : Prop where
  expected : x.expected = v
  ty : ∀ a, x.pending = some a → a.ty = v.value.ty
  news : x.News

variable {x y z : Entry β} {l : List (Entry β)} {a : Any β} {v : Version β}

theorem Sane.ty_current (h : x.Sane v) : x.current.ty = v.value.ty := by
  unfold current
  cases hp : x.pending with
  | none => rw [Option.getD_none, h.expected]
  | some a => exact h.ty a hp

theorem Sane.set (h : x.Sane v) (hs : x.set a = .ok y) : y.Sane v := by
  have hnews := h.news.set hs
  have hcur := h.ty_current
  unfold Entry.set at hs
  split at hs
  · rename_i ht
    split at hs
    · cases hs
      exact h
    · split at hs
      · cases hs
        exact ⟨h.expected, nofun, hnews⟩
      · cases hs
        refine ⟨h.expected, ?_, hnews⟩
        rintro b ⟨⟩
        exact ht.symm.trans hcur
  · cases hs

theorem Edited.sane (h : Edited v l) : ∀ z ∈ l, z.Sane v := by
  induction h with
  | made created => exact List.forall_mem_singleton.2 ⟨rfl, nofun, nofun⟩
  | write h hs ih => exact List.forall_mem_cons.2 ⟨(ih _ List.mem_cons_self).set hs, ih⟩
  | @restore x z l h hz ih =>
    obtain ⟨he, ht, hn⟩ := ih z hz
    have hx := (ih x List.mem_cons_self).expected
    refine List.forall_mem_cons.2 ⟨⟨hx, ht, ?_⟩, ih⟩
    intro a ha
    show x.expected.value.same a = false
    rw [hx, ← he]
    exact hn a ha

theorem Sane.isChanged_iff (h : x.Sane v) (hl : v.value.ty.Lawful) :
    x.isChanged ↔ v.value.same x.current = false := by
  unfold isChanged current
  cases hp : x.pending with
  | none => simp [h.expected, Any.same_refl hl]
  | some a => simpa [h.expected] using h.news a hp

theorem Sane.set_lawful (h : x.Sane v) (hl : v.value.ty.Lawful) (ha : a.ty = v.value.ty) :
    ∃ y, x.set a = .ok y ∧ y.Sane v ∧ a.same y.current ∧
      (y.isChanged ↔ v.value.same a = false) := by
  obtain ⟨y, hy⟩ := set_isOk (h.ty_current.trans ha.symm)
  have hs := h.set hy
  have hla : a.ty.Lawful := ha ▸ hl
  have hcur : a.same y.current := by
    rcases current_of_set hy with e | hs'
    · rw [e]
      exact Any.same_refl hla
    · exact Any.same_symm (hs.ty_current ▸ hl) hs'
  refine ⟨y, hy, hs, hcur, (hs.isChanged_iff hl).trans ?_⟩
  have : v.value.same y.current ↔ v.value.same a :=
    ⟨fun e => Any.same_trans hl e (Any.same_symm hla hcur), fun e => Any.same_trans hl e hcur⟩
  simpa using not_congr this

end Entry

/-- Every entry has come about by writing and taking back. -/
def Journal.Edited (j : Journal β) : Prop :=
  ∀ (c : CellId) (x : Entry β), j.entries[c]? = some x → ∃ l, Entry.Edited x.expected (x :: l)

namespace Bench

def Traces (b : Bench β) (c : CellId) (x : Entry β) : Prop :=
  ∃ l, Entry.Edited x.expected (x :: l) ∧
    ∀ k ∈ b.marks, ∃ z ∈ x :: l, z.pending = (k[c]?).join

structure Edited (b : Bench β) : Prop where
  entries : ∀ (c : CellId) (x : Entry β), b.journal.entries[c]? = some x → b.Traces c x
  fresh : ∀ c : CellId, b.journal.entries[c]? = none → ∀ k ∈ b.marks, k[c]? = none

variable {b b' : Bench β} {c : CellId} {x y : Entry β} {a : Any β}

theorem Traces.set (h : b.Traces c x) (hs : x.set a = .ok y) : b.Traces c y := by
  obtain ⟨l, hl, hk⟩ := h
  refine ⟨x :: l, ?_, fun k hm => ?_⟩
  · have := hl.write hs
    obtain ⟨p, rfl⟩ := Entry.eq_of_set hs
    exact this
  · obtain ⟨z, hz, he⟩ := hk k hm
    exact ⟨z, List.mem_cons_of_mem y hz, he⟩

theorem Edited.traces_new (h : b.Edited) (hc : b.journal.entries[c]? = none) (v : Version β)
    (created : Bool) : b.Traces c { expected := v, created } :=
  -- A cell without an entry is unknown to all checkpoints, so a new entry is as it would be there.
  ⟨[], .made created, fun k hk => ⟨_, List.mem_singleton_self _, by rw [h.fresh c hc k hk]; rfl⟩⟩

theorem Edited.traces_entry (h : b.Edited) : b.Traces c (b.journal.entry b.store c) := by
  cases hc : b.journal.entries[c]? with
  | none =>
    have := h.traces_new hc (b.store.version c) false
    simpa [Journal.entry, hc] using this
  | some x =>
    rw [Journal.entry_eq_of_getElem? hc]
    exact h.entries c x hc

theorem Edited.put (h : b.Edited) (hx : b.Traces c x) (s : Store β) (made : List CellId) :
    ({ b with journal := b.journal.put c x, store := s, made } : Bench β).Edited where
  entries d y hy := by
    rw [Journal.getElem?_put] at hy
    split at hy
    · rename_i e
      subst e
      cases hy
      exact hx
    · exact h.entries d y hy
  fresh d hd := by
    rw [Journal.getElem?_put] at hd
    split at hd
    · cases hd
    · exact h.fresh d hd

theorem Edited.touch (h : b.Edited) (c : CellId) (f : Any β → Except Panic (Access β)) :
    (b.touch c f).Edited := by
  have hx := h.traces_entry (c := c)
  unfold Bench.touch
  rcases Journal.touch_put_cases (j := b.journal) (s := b.store) (c := c) f with
    ⟨v, y, hy, e⟩ | e
  · rw [e]
    exact h.put (hx.set hy) b.store b.made
  · rw [e]
    exact h.put hx b.store b.made

theorem Edited.back (h : b.Edited) {k : Checkpoint β} {inner ks : List (Checkpoint β)}
    (hk : b.marks = inner ++ k :: ks) : (b.back k ks).Edited where
  entries c x hx := by
    simp only [Bench.back, Journal.getElem?_rollback, Option.map_eq_some_iff] at hx
    obtain ⟨y, hy, rfl⟩ := hx
    obtain ⟨l, hl, hm⟩ := h.entries c y hy
    obtain ⟨z, hz, he⟩ := hm k (by rw [hk]; simp)
    refine ⟨y :: l, by simpa only [he] using hl.restore hz, fun k' hk' => ?_⟩
    obtain ⟨z', hz', he'⟩ := hm k' (by rw [hk]; exact List.mem_append_right inner hk')
    exact ⟨z', List.mem_cons_of_mem _ hz', he'⟩
  fresh c hc k' hk' := by
    simp only [Bench.back, Journal.getElem?_rollback, Option.map_eq_none_iff] at hc
    exact h.fresh c hc k' (by rw [hk]; exact List.mem_append_right inner hk')

theorem Step.edited (hs : b.Step b') (hb : b.Sound) (h : b.Edited) : b'.Edited := by
  cases hs with
  | touch c f => exact h.touch c f
  | make v =>
    have hn := hb.journal.getElem?_eq_none hb.store.nextCell_notMem
    exact h.put (h.traces_new hn _ true) _ _
  | mark =>
    refine ⟨fun c x hx => ?_, fun c hc => ?_⟩
    · obtain ⟨l, hl, hm⟩ := h.entries c x hx
      refine ⟨l, hl, List.forall_mem_cons.2 ⟨⟨x, List.mem_cons_self, ?_⟩, hm⟩⟩
      rw [Journal.getElem?_checkpoint, show b.journal.entries[c]? = some x from hx]
      rfl
    · refine List.forall_mem_cons.2 ⟨?_, h.fresh c hc⟩
      rw [Journal.getElem?_checkpoint, show b.journal.entries[c]? = none from hc]
      rfl
  | leave hk =>
    refine ⟨fun c x hx => ?_, fun c hc k' hk' => ?_⟩
    · obtain ⟨l, hl, hm⟩ := h.entries c x hx
      exact ⟨l, hl, fun k' hk' => hm k' (by rw [hk]; exact List.mem_cons_of_mem _ hk')⟩
    · exact h.fresh c hc k' (by rw [hk]; exact List.mem_cons_of_mem _ hk')
  | back _ hk => exact h.back hk
  | others => exact ⟨h.entries, h.fresh⟩

theorem Leads.edited (hl : b.Leads b') (hb : b.Sound) (h : b.Edited) : b'.Edited := by
  induction hl with
  | refl => exact h
  | step hl hs ih => exact hs.edited (hl.sound hb) ih

end Bench

section

variable {h : History β Ω} {e : Engine β Ω} {i : CommitId} {c : Commit β Ω} {m : Machine β Ω}

theorem Run.edited (r : Run h e) (hc : e.commits[i]? = some c) (hm : c.phase.attempt? = some m) :
    m.journal.Edited := by
  obtain ⟨s, made, hs, hl⟩ := r.leads hc hm
  have he : ({ journal := {}, store := s } : Bench β).Edited :=
    ⟨fun c x hx => by simp at hx, fun c _ k hk => by simp at hk⟩
  intro d x hx
  obtain ⟨l, hx', -⟩ := (hl.edited (Bench.sound_start hs) he).entries d x hx
  exact ⟨l, hx'⟩

end

namespace Journal

variable {j : Journal β} {s : Store β}

theorem Edited.sane (h : j.Edited) {c : CellId} {x : Entry β} (hx : j.entries[c]? = some x) :
    x.Sane x.expected := by
  obtain ⟨l, hl⟩ := h c x hx
  exact hl.sane x List.mem_cons_self

theorem analyze_eq_readWrite_iff :
    j.analyze s = .readWrite ↔ j.isValid s ∧ j.isChanged := by
  unfold analyze
  cases j.isValid s <;> cases j.isChanged <;> simp

theorem Edited.analyze_iff (h : j.Edited)
    (hl : ∀ (c : CellId) (x : Entry β), j.entries[c]? = some x → x.expected.value.ty.Lawful) :
    j.analyze s = .readWrite ↔
      (∀ (c : CellId) (x : Entry β), j.entries[c]? = some x → x.isValid c s) ∧
        ∃ (c : CellId) (x : Entry β), j.entries[c]? = some x ∧
          x.expected.value.same x.current = false := by
  rw [analyze_eq_readWrite_iff, isValid_iff, isChanged_iff]
  refine and_congr_right fun _ => ?_
  constructor
  · rintro ⟨c, x, hx, hch⟩
    exact ⟨c, x, hx, ((h.sane hx).isChanged_iff (hl c x hx)).1 hch⟩
  · rintro ⟨c, x, hx, hne⟩
    exact ⟨c, x, hx, ((h.sane hx).isChanged_iff (hl c x hx)).2 hne⟩

end Journal

/-- The attempt would come to a result now, as it has not retried and nobody has come before it. -/
def Machine.Concludes (m : Machine β Ω) (s : Store β) : Prop :=
  (m.outcome?.bind Exit.result?).isSome ∧ m.journal.isValid s

/-- The last write to a cell, if that stands, is equal to the value that the attempt has first seen
there. -/
def Journal.Restores (j : Journal β) (d : Diary β Ω) : Prop :=
  ∀ p ∈ j.entries.toList, ∀ v ∈ d.written p.1,
    p.2.expected.value.ty.Lawful ∧ p.2.expected.value.same v

def Move.advances? : Move β Ω → Option CommitId
  | .advance i => some i
  | _ => none

/-- The attempts of a commit that came to a result have put back whatever they wrote. -/
def History.Restores (i : CommitId) : History β Ω → Prop
  | [] => True
  | (e, x) :: h => (x.advances? = some i → ∀ c ∈ e.commits[i]?, ∀ m ∈ c.phase.attempt?,
      m.Concludes e.store → m.journal.Restores (diary i h)) ∧ Restores i h

def History.Concluding (P : Diary β Ω → Journal β → Prop) (i : CommitId) : History β Ω → Prop
  | [] => True
  | (e, x) :: h => (x.advances? = some i → ∀ c ∈ e.commits[i]?, ∀ m ∈ c.phase.attempt?,
      m.Concludes e.store → P (diary i h) m.journal) ∧ Concluding P i h

def History.Silent (i : CommitId) (h : History β Ω) : Prop :=
  h.Concluding (fun _ j => j.isChanged = false) i

instance {m : Machine β Ω} {s : Store β} : Decidable (m.Concludes s) :=
  inferInstanceAs (Decidable (_ ∧ _))

instance [DecidablePred (Ty.Lawful (β := β))] {j : Journal β} {d : Diary β Ω} :
    Decidable (j.Restores d) :=
  inferInstanceAs (Decidable (∀ p ∈ _, ∀ v ∈ _, _ ∧ _))

instance History.Restores.decide [DecidablePred (Ty.Lawful (β := β))] (i : CommitId) :
    (h : History β Ω) → Decidable (h.Restores i)
  | [] => inferInstanceAs (Decidable True)
  | _ :: h =>
    have := decide i h
    inferInstanceAs (Decidable (_ ∧ _))

instance History.Concluding.decide {P : Diary β Ω → Journal β → Prop} [∀ d j, Decidable (P d j)]
    (i : CommitId) : (h : History β Ω) → Decidable (h.Concluding P i)
  | [] => inferInstanceAs (Decidable True)
  | _ :: h =>
    have := decide (P := P) i h
    inferInstanceAs (Decidable (_ ∧ _))

section

variable {h : History β Ω} {e : Engine β Ω} {i : CommitId} {c : Commit β Ω} {m : Machine β Ω}

theorem Run.isChanged_of_restored (r : Run h e) (hc : e.commits[i]? = some c)
    (hm : c.phase.attempt? = some m) (hr : m.journal.Restores (h.diary i)) :
    m.journal.isChanged = false := by
  rw [Bool.eq_false_iff, Ne, Journal.isChanged_iff]
  rintro ⟨d, x, hx, hch⟩
  have href := r.reflects hc hm d
  cases hw : (h.diary i).written d with
  | none =>
    rw [Diary.written] at hw
    simp only [hw] at href
    simp [Entry.isChanged, href x hx] at hch
  | some v =>
    obtain ⟨hl, hsame⟩ := hr (d, x) (Std.ExtTreeMap.mem_toList_iff_getElem?_eq_some.2 hx) v hw
    rw [Diary.written] at hw
    simp only [hw] at href
    obtain ⟨y, hy, hcur⟩ := href
    cases hx.symm.trans hy
    have hs := (r.edited hc hm).sane hx
    have hne := (hs.isChanged_iff hl).1 hch
    have heq : x.expected.value.same x.current := by
      rcases hcur with e | hcur
      · rwa [e]
      · exact Any.same_trans hl hsame (Any.same_symm (hs.ty_current ▸ hl) hcur)
    rw [hne] at heq
    cases heq

theorem History.concluding_of_restores (hr : h.Restores i) : h.Concluding (fun d j => j.Restores d) i := by
  induction h with
  | nil => trivial
  | cons x h ih => exact ⟨hr.1, ih hr.2⟩

theorem History.Concluding.and {P Q : Diary β Ω → Journal β → Prop} (hP : h.Concluding P i)
    (hQ : h.Concluding Q i) : h.Concluding (fun d j => P d j ∧ Q d j) i := by
  induction h with
  | nil => trivial
  | cons x h ih =>
    exact ⟨fun hx c hc m hm hconcl => ⟨hP.1 hx c hc m hm hconcl, hQ.1 hx c hc m hm hconcl⟩, ih hP.2 hQ.2⟩

theorem Run.concluding {P Q : Diary β Ω → Journal β → Prop} (r : Run h e) (hP : h.Concluding P i)
    (hPQ : ∀ {h : History β Ω} {e : Engine β Ω} {c : Commit β Ω} {m : Machine β Ω}, Run h e →
      e.commits[i]? = some c → c.phase.attempt? = some m → P (h.diary i) m.journal →
      Q (h.diary i) m.journal) : h.Concluding Q i := by
  induction r with
  | start => trivial
  | next r _ ih => exact ⟨fun hx c hc m hm hconcl => hPQ r hc hm (hP.1 hx c hc m hm hconcl), ih hP.2⟩

theorem Run.silent_of_restores (r : Run h e) (hr : h.Restores i) : h.Silent i :=
  r.concluding (History.concluding_of_restores hr) fun r hc hm => r.isChanged_of_restored hc hm

theorem Run.version_of_silent (r : Run h e) (hr : History.Silent i ((e, .advance i) :: h))
    (hc : e.commits[i]? = some c) {c' : Commit β Ω} {s' : Store β} {call : Call} {p : Point β Ω}
    {woken : List CommitId} (hp : c.phase = .busy call p)
    (ht : c.Transition i e.store e.world call p c' s' woken) {d : CellId} (hd : d ∈ e.store.cells) :
    s'.version d = e.store.version d := by
  by_contra hv
  have hk := r.tracked.known i c hc
  obtain ⟨m, x, v, rfl, hx, hpending, -⟩ :=
    ht.news_of_version hk hp r.tracked.sound (r.news hc) hd hv
  obtain hsame | ⟨-, -, res, w, hq⟩ := ht.version_eq hk hp r.tracked.sound
  · exact hv (hsame d hd)
  · obtain ⟨o, ho, hres, hvalid, -⟩ := ht.published hq
    have hm : c.phase.attempt? = some m := by
      rw [hp]
      rfl
    have hconcl : m.Concludes e.store := by
      refine ⟨?_, hvalid⟩
      rw [ho, Option.bind_some, Option.isSome_iff_ne_none, Ne, Exit.result?_eq_none]
      rintro rfl
      cases hres
    have hsilent := hr.1 rfl c hc m hm hconcl
    have hch := (Journal.isChanged_iff _).2 ⟨d, x, hx, by rw [Entry.isChanged, hpending]; rfl⟩
    rw [hsilent] at hch
    cases hch

theorem Run.woken_of_silent (r : Run h e) (hc : e.commits[i]? = some c) (hr : h.Silent i) :
    c.phase.woken = [] := by
  refine r.each (P := fun h _ i c => h.Silent i → c.phase.woken = []) ?_ ?_ ?_ hc hr
  · intros
    rfl
  · intro h e m i c c' r hm hc ih hmv hr
    have hw := ih hr.2
    cases hmv with
    | keep | setFiber | setScheduler | setWatched | interrupt => exact hw
    | poll | refuse | runSync | settle => rfl
    | drop =>
      rw [Commit.drop_fst]
      exact hw
    | turn hp ht =>
      refine List.eq_nil_iff_forall_not_mem.2 fun k hk => ?_
      rcases ht.woken_of hp r.tracked.sound (r.tracked.known i c hc) hk with hk | ⟨d, hd, hv, -⟩
      · rw [hw] at hk
        cases hk
      · exact hv (r.version_of_silent hr hc hp ht hd)
  · intro _ _ _ _ _ _ ih
    exact ih

theorem Engine.advance_eq {call : Call} {p : Point β Ω} (hc : e.commits[i]? = some c)
    (hp : c.phase = .busy call p) (hw : (c.run i call e.store e.world p).woken = []) :
    e.act (.advance i) = e.turned i (c.run i call e.store e.world p) := by
  simp only [act, advance, hc, hp, hw]
  rfl

theorem Run.advance_of_silent (r : Run h e) (ha : e.admits (.advance i))
    (hr : History.Silent i ((e, .advance i) :: h)) :
    (∀ d ∈ e.store.cells, (e.act (.advance i)).store.version d = e.store.version d) ∧
      (∀ k, k ≠ i → (e.act (.advance i)).commits[k]? = e.commits[k]?) ∧
      (e.act (.advance i)).schedulers = e.schedulers ∧ (e.act (.advance i)).wakes = e.wakes ∧
      (e.act (.advance i)).unparked = e.unparked := by
  obtain ⟨c, hc⟩ := Engine.exists_of_advance ha
  obtain ⟨call, p, hp⟩ := Engine.busy_of_admits ha hc
  have ht : c.Transition i e.store e.world call p _ _ _ := Commit.transition_run call p
  have hw : (c.run i call e.store e.world p).woken = [] := by
    by_contra hne
    obtain ⟨res, hwaking⟩ := ht.eq_waking hne
    have := r.woken_of_silent hc hr.2
    rw [hp, hwaking] at this
    exact hne this
  rw [Engine.advance_eq hc hp hw]
  refine ⟨fun d hd => r.version_of_silent hr hc hp ht hd, fun k hk => ?_, rfl, rfl, rfl⟩
  rw [Engine.turned, Engine.getElem?_put, if_neg (Ne.symm hk)]

theorem Run.advance_of_restores (r : Run h e) (ha : e.admits (.advance i))
    (hr : History.Restores i ((e, .advance i) :: h)) :
    (∀ d ∈ e.store.cells, (e.act (.advance i)).store.version d = e.store.version d) ∧
      (∀ k, k ≠ i → (e.act (.advance i)).commits[k]? = e.commits[k]?) ∧
      (e.act (.advance i)).schedulers = e.schedulers ∧ (e.act (.advance i)).wakes = e.wakes ∧
      (e.act (.advance i)).unparked = e.unparked :=
  r.advance_of_silent ha ((r.next ha).silent_of_restores hr)

end

/-- Whatever was written to an entry and taken back before, after a write the cell reads as a value equal
to the one written, and counts as changed if and only if that one differs from the value first seen. So
the journal of an attempt is found to write if and only if nobody has come before it and some cell would
end up with another value, and a commit that puts back values equal to those it has read publishes
nothing and wakes nobody. -/
theorem last_write_decides :
    (∀ (v : Version β) (x : Entry β) (l : List (Entry β)) (a : v.value.ty.El),
      Entry.Edited v (x :: l) → v.value.ty.Lawful → ∃ y b, x.set ⟨v.value.ty, a⟩ = .ok y ∧
        y.get v.value.ty = .ok b ∧ v.value.ty.same a b ∧
        (y.isChanged ↔ v.value.same ⟨v.value.ty, a⟩ = false)) ∧
    (∀ (h : History β Ω) (e : Engine β Ω) (i : CommitId) (c : Commit β Ω) (m : Machine β Ω),
      Run h e → e.commits[i]? = some c → c.phase.attempt? = some m → m.journal.Edited) ∧
    (∀ (j : Journal β) (s : Store β), j.Edited → (∀ (c : CellId) (x : Entry β),
        j.entries[c]? = some x → x.expected.value.ty.Lawful) →
      (j.analyze s = .readWrite ↔
        (∀ (c : CellId) (x : Entry β), j.entries[c]? = some x → x.isValid c s) ∧
          ∃ (c : CellId) (x : Entry β), j.entries[c]? = some x ∧
            x.expected.value.same x.current = false)) ∧
    ∀ (h : History β Ω) (e : Engine β Ω) (i : CommitId), Run h e → e.admits (.advance i) →
      History.Restores i ((e, .advance i) :: h) →
      (∀ d ∈ e.store.cells, (e.act (.advance i)).store.version d = e.store.version d) ∧
        (∀ k, k ≠ i → (e.act (.advance i)).commits[k]? = e.commits[k]?) ∧
        (e.act (.advance i)).schedulers = e.schedulers ∧ (e.act (.advance i)).wakes = e.wakes ∧
        (e.act (.advance i)).unparked = e.unparked := by
  refine ⟨fun v x l a hx hl => ?_, fun h e i c m r hc hm => r.edited hc hm,
    fun j s hj hl => hj.analyze_iff hl, fun h e i r ha hr => r.advance_of_restores ha hr⟩
  obtain ⟨y, hy, hs, hsame, hch⟩ :=
    (hx.sane x List.mem_cons_self).set_lawful (a := ⟨v.value.ty, a⟩) hl rfl
  obtain ⟨b, hb⟩ := Option.isSome_iff_exists.1 (Any.as_isSome.2 hs.ty_current)
  rw [Any.as_eq_some hb, Any.same_mk] at hsame
  exact ⟨y, b, hy, by simp [Entry.get, hb], hsame, hch⟩

inductive Letters
  | letter
  deriving DecidableEq

namespace Letters

instance : Universe Letters where
  El _ := Char
  same _ a b := a.toLower == b.toLower
  name _ := "letter"
  decEq := inferInstance

def any (l : Char) : Any Letters := ⟨.base .letter, l⟩

theorem lawful (t : Ty Letters) : t.Lawful := by
  have letter : Equivalence fun u v : Char => (u.toLower == v.toLower) = true :=
    ⟨fun _ => BEq.rfl, BEq.symm, BEq.trans⟩
  refine .of_base (fun b => ?_) t
  cases b
  exact letter

instance : DecidablePred (Ty.Lawful (β := Letters)) := fun t => .isTrue (lawful t)

end Letters

/-- A cell holds a small letter. A commit writes another one there, and then the capital of the first. -/
def respelled : List (Move Letters Unit) :=
  let write (l : Char) : Tree Letters Unit := .touch ⟨1⟩ fun _ _ => .ok (.write (Letters.any l) .unit)
  [.alloc (Letters.any 'a'),
    .commit (.onSuccess (write 'b') fun _ _ => write 'A') .never .unit none,
    .runSync ⟨1⟩] ++ List.replicate 6 (.advance ⟨1⟩)

theorem last_write_respelled :
    let v : Version Letters := ⟨⟨1⟩, 1, Letters.any 'a'⟩
    (∃ y, Entry.set { expected := v, pending := some (Letters.any 'b') } (Letters.any 'A') = .ok y ∧
      y.isChanged = false) ∧
    let p := Engine.play { world := () } [] respelled
    ∃ c m, p.2.commits[(⟨1⟩ : CommitId)]? = some c ∧ c.phase.attempt? = some m ∧
      m.Concludes p.2.store ∧ ((p.1.diary ⟨1⟩).written ⟨1⟩).isSome ∧
      m.journal.analyze p.2.store ≠ .readWrite ∧
      (p.2.act (.advance ⟨1⟩)).store.version ⟨1⟩ = p.2.store.version ⟨1⟩ := by
  -- The first write waits to be published and the second one takes it back, so the attempt has written and
  -- publishes nothing.
  obtain ⟨hentry, hedited, hanalyze, hturn⟩ := last_write_decides (β := Letters) (Ω := Unit)
  intro v
  refine ⟨?_, ?_⟩
  · have hx : Entry.Edited v
        [{ expected := v, pending := some (Letters.any 'b') }, { expected := v }] :=
      (Entry.Edited.made false).write (a := Letters.any 'b') rfl
    obtain ⟨y, b, hy, -, -, hch⟩ := hentry v _ _ 'A' hx (Letters.lawful _)
    refine ⟨y, hy, ?_⟩
    rw [Bool.eq_false_iff, Ne, hch]
    decide
  · intro p
    have r : Run p.1 p.2 := (Run.start ()).play (by decide +kernel)
    obtain ⟨c, m, hc, hm⟩ : ∃ c m, p.2.commits[(⟨1⟩ : CommitId)]? = some c ∧
        c.phase.attempt? = some m := ⟨_, _, by with_unfolding_all rfl, rfl⟩
    have hend : ∀ c ∈ p.2.commits[(⟨1⟩ : CommitId)]?, ∀ m ∈ c.phase.attempt?,
        m.Concludes p.2.store ∧
          ∀ q ∈ m.journal.entries.toList, q.2.expected.value.same q.2.current := by decide +kernel
    obtain ⟨hconcl, hsame⟩ := hend c hc m hm
    obtain ⟨hversion, -⟩ := hturn p.1 p.2 ⟨1⟩ r (by decide +kernel) (by decide +kernel)
    refine ⟨c, m, hc, hm, hconcl, by decide +kernel, ?_, hversion ⟨1⟩ (by decide +kernel)⟩
    rw [Ne, hanalyze _ _ (hedited _ _ _ c m r hc hm) fun _ _ _ => Letters.lawful _]
    rintro ⟨-, d, x, hx, hne⟩
    rw [hsame (d, x) (Std.ExtTreeMap.mem_toList_iff_getElem?_eq_some.2 hx)] at hne
    cases hne

end TransactionalMemory
