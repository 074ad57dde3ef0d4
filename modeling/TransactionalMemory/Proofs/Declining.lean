import TransactionalMemory.Promise
import TransactionalMemory.Proofs.LastWrite
import TransactionalMemory.Proofs.Operations
import TransactionalMemory.Proofs.Usage
import TransactionalMemory.Scenario.Val

namespace TransactionalMemory

variable {β : Type} [Universe β] {Ω : Type}

/-- The operation finds the value in the cell, declines to write, and answers. To complete a promise in
either way declines once there is a result. -/
inductive Tree.Declines (ω : Ω) : Any β → Tree β Ω → CellId → Any β → Prop
  | modifySome {r : Ref A} {default : B.El} {f : A.El → Code Ω (Option (B.El × A.El))} {a : A.El} :
    f a ω = .ok none →
    Declines ω ⟨A, a⟩ (r.modifySome default f : Tx Ω R E B).tree r.cell ⟨B, default⟩
  | updateSome {r : Ref A} {f : A.El → Code Ω (Option A.El)} {a : A.El} : f a ω = .ok none →
    Declines ω ⟨A, a⟩ (r.updateSome f : Tx Ω R E .unit).tree r.cell .unit
  | getAndUpdateSome {r : Ref A} {f : A.El → Code Ω (Option A.El)} {a : A.El} : f a ω = .ok none →
    Declines ω ⟨A, a⟩ (r.getAndUpdateSome f : Tx Ω R E A).tree r.cell ⟨A, a⟩
  | updateSomeAndGet {r : Ref A} {f : A.El → Code Ω (Option A.El)} {a : A.El} : f a ω = .ok none →
    Declines ω ⟨A, a⟩ (r.updateSomeAndGet f : Tx Ω R E A).tree r.cell ⟨A, a⟩
  | complete {p : Promise E' A} {q q' : Except E'.El A.El} :
    Declines ω ⟨.option (.result E' A), some q'⟩ (p.complete q : Tx Ω R E .bool).tree p.cell
      ⟨.bool, false⟩

section

variable {ω : Ω} {v a : Any β} {t : Tree β Ω} {c : CellId} {R E A B : Ty β}

theorem Ref.modify_eq_touch {r : Ref A} {f : A.El → Code Ω (B.El × A.El)} {x : A.El} {y : B.El}
    (h : f x ω = .ok (y, x)) : ∃ g, (r.modify f : Tx Ω R E B).tree = .touch r.cell g ∧
      g ⟨A, x⟩ ω = .ok (.write ⟨A, x⟩ ⟨B, y⟩) := by
  refine ⟨_, rfl, ?_⟩
  rw [Any.as_self]
  change (f x ω).map _ = _
  rw [h]
  rfl

theorem Ref.modify_touches {r : Ref A} {f : A.El → Code Ω (B.El × A.El)}
    (h : ∀ x ω p, f x ω = .ok p → p.2 = x) : (r.modify f : Tx Ω R E B).tree.Touches fun _ g =>
      ∀ v ω w a, g v ω = .ok (.write w a) → w = v := by
  intro v ω w a hw
  beta_reduce at hw
  cases hs : v.as A with
  | none =>
    rw [hs] at hw
    cases hw
  | some x =>
    rw [hs] at hw
    change (f x ω).map _ = _ at hw
    cases hf : f x ω with
    | error p =>
      rw [hf] at hw
      cases hw
    | ok p =>
      rw [hf] at hw
      cases hw
      rw [h x ω p hf, Any.as_eq_some hs]

theorem Tree.Declines.eq_touch (h : t.Declines ω v c a) :
    ∃ g, t = .touch c g ∧ g v ω = .ok (.write v a) := by
  cases h with
  | @modifySome _ _ _ _ _ _ f x hf =>
    refine Ref.modify_eq_touch ?_
    change (f x ω).map _ = _
    rw [hf]
    rfl
  | @updateSome _ _ _ _ f x hf =>
    refine Ref.modify_eq_touch ?_
    change ((f x ω).map _).map _ = _
    rw [hf]
    rfl
  | @getAndUpdateSome _ _ _ _ f x hf | @updateSomeAndGet _ _ _ _ f x hf =>
    refine Ref.modify_eq_touch ?_
    change (f x ω).map _ = _
    rw [hf]
    rfl
  | @complete E' A R E p q q' =>
    exact Ref.modify_eq_touch (r := p.state) rfl

end

namespace Entry

variable {x : Entry β}

theorem set_current_of_not_same (h : x.current.same x.current = false) (hn : x.pending = none ∨ x.News) :
    x.set x.current = .ok { x with pending := some x.current } := by
  have he : x.expected.value.same x.current = false := by
    cases hp : x.pending with
    | none =>
      have hcur : x.current = x.expected.value := by simp [current, hp]
      rwa [hcur] at h ⊢
    | some p =>
      obtain hn | hn := hn
      · simp [hn] at hp
      · have hcur : x.current = p := by simp [current, hp]
        rw [hcur]
        exact hn p hp
  rw [set, if_pos rfl, if_neg (by simp [h]), if_neg (by simp [he])]

end Entry

namespace Journal

variable {j : Journal β} {s : Store β} {c d : CellId} {x : Entry β}

theorem isChanged_iff_pending : j.isChanged ↔ ∃ c, (j.pending c).isSome := by
  rw [isChanged_iff]
  constructor
  · rintro ⟨c, x, hx, hch⟩
    exact ⟨c, by rwa [pending, hx]⟩
  · rintro ⟨c, hc⟩
    obtain ⟨v, hv⟩ := Option.isSome_iff_exists.1 hc
    obtain ⟨x, hx, hp⟩ := Option.bind_eq_some_iff.1 hv
    exact ⟨c, x, hx, by rw [Entry.isChanged, hp]; rfl⟩

theorem isValid_entry_iff :
    (j.entry s c).isValid c s ↔ ∀ y, j.entries[c]? = some y → y.isValid c s := by
  cases hx : j.entries[c]? with
  | none => simp [entry, hx, Entry.isValid, Version.same_iff]
  | some x => simp [entry_eq_of_getElem? hx]

theorem isValid_put (h : x.expected = (j.entry s c).expected) : (j.put c x).isValid s = j.isValid s := by
  have hx : x.isValid c s ↔ ∀ y, j.entries[c]? = some y → y.isValid c s := by
    rw [← isValid_entry_iff, Entry.isValid, h, Entry.isValid]
  rw [Bool.eq_iff_iff, isValid_iff, isValid_iff]
  simp only [getElem?_put]
  constructor
  · intro hv d y hy
    have hd := hv d
    split at hd
    · rename_i e
      subst e
      exact hx.1 (hd x rfl) y hy
    · exact hd y hy
  · intro hv d y hy
    split at hy
    · rename_i e
      subst e
      cases hy
      exact hx.2 (hv c)
    · exact hv d y hy

structure Unmoved (j : Journal β) (s : Store β) (c : CellId) (j' : Journal β) : Prop where
  eq_put : j' = j.put c (j.entry s c)
  pending : ∀ d, j'.pending d = j.pending d
  analyze : j'.analyze s = j.analyze s

theorem unmoved_put_entry : j.Unmoved s c (j.put c (j.entry s c)) where
  eq_put := rfl
  pending _ := pending_put_entry
  analyze := by
    have hch : (j.put c (j.entry s c)).isChanged = j.isChanged := by
      rw [Bool.eq_iff_iff, isChanged_iff_pending, isChanged_iff_pending]
      simp only [pending_put_entry]
    rw [analyze, analyze, isValid_put rfl, hch]

end Journal

section

variable {f : FiberId} {env : Any β} {j j' : Journal β} {x : Scene β Ω} {o : Outcome β} {v a : Any β}
  {t : Tree β Ω} {c : CellId}

theorem Tree.Declines.evaluates_iff (h : t.Declines x.world v c a)
    (hv : (j.entry x.store c).current = v) : t.Evaluates f env j [x] o j' ↔
      (o, j') = j.touch x.store c fun _ => .ok (.write v a) := by
  obtain ⟨g, rfl, hg⟩ := h.eq_touch
  rw [Tree.evaluates_touch_one]
  rw [Journal.touch_of_current (f := fun v => g v x.world) (q := .ok (.write v a)) (by rw [hv, hg])]

theorem Tree.Declines.unmoved (h : t.Declines x.world v c a) (hv : (j.entry x.store c).current = v)
    (hs : v.same v ∨ (j.pending c).isSome ∧ j.News) (he : t.Evaluates f env j [x] o j') :
    j.Unmoved x.store c j' := by
  have hset : (j.entry x.store c).set v = .ok (j.entry x.store c) := by
    subst hv
    by_cases hself : (j.entry x.store c).current.same (j.entry x.store c).current
    · exact Entry.set_of_same hself
    · obtain ⟨hp, hn⟩ := hs.resolve_left hself
      rw [Bool.not_eq_true] at hself
      rw [Entry.set_current_of_not_same hself (.inr hn.entry)]
      rw [← Journal.pending_entry (s := x.store), Option.isSome_iff_exists] at hp
      obtain ⟨p, hp⟩ := hp
      generalize j.entry x.store c = y at hp
      obtain ⟨expected, pending, created⟩ := y
      cases hp
      rfl
  rw [h.evaluates_iff hv, Journal.touch_write, hset] at he
  obtain ⟨-, rfl⟩ := Prod.mk.inj he
  exact Journal.unmoved_put_entry

theorem Tree.Declines.moved (h : t.Declines x.world v c a) (hv : (j.entry x.store c).current = v)
    (hs : v.same v = false) (hp : j.pending c = none) (he : t.Evaluates f env j [x] o j') :
    j'.pending c = some v ∧ (j.isValid x.store → j'.analyze x.store = .readWrite) := by
  have hset : (j.entry x.store c).set v = .ok { j.entry x.store c with pending := some v } := by
    subst hv
    exact Entry.set_current_of_not_same hs (.inl (Journal.pending_entry.trans hp))
  rw [h.evaluates_iff hv, Journal.touch_write, hset] at he
  obtain ⟨-, rfl⟩ := Prod.mk.inj he
  have hpending : (j.put c { j.entry x.store c with pending := some v }).pending c = some v := by
    rw [Journal.pending_put, if_pos rfl]
  refine ⟨hpending, fun hj => Journal.analyze_eq_readWrite_iff.2 ⟨?_, ?_⟩⟩
  · exact (Journal.isValid_put (x := { j.entry x.store c with pending := some v }) rfl).trans hj
  · exact Journal.isChanged_iff_pending.2 ⟨c, by rw [hpending]; rfl⟩

end

namespace Moment

/-- The step writes nothing but what it has found. -/
def WritesBack (y : Moment β Ω) : Prop := ∀ c v, y.write? c = some v → v = y.found c

def Reflexive (y : Moment β Ω) : Prop := ∀ c ∈ y.cell?, ∀ v ∈ y.write? c, v.same v

instance : DecidablePred (Reflexive (β := β) (Ω := Ω)) := fun y =>
  inferInstanceAs (Decidable (∀ c ∈ y.cell?, ∀ v ∈ y.write? c, v.same v))

def Absorbed (y : Moment β Ω) : Prop := ∀ c v, y.write? c = some v → (y.found c).same v

variable {y : Moment β Ω}

theorem exists_of_write? {c : CellId} {v : Any β} (h : y.write? c = some v) :
    ∃ g a, y.machine.focus = .run (.touch c g) ∧ g (y.found c) y.scene.world = .ok (.write v a) := by
  unfold write? at h
  split at h
  · rename_i d g hf
    split at h
    · rename_i hd
      subst hd
      split at h
      · rename_i w a hg
        split at h
        · cases h
          exact ⟨g, a, hf, hg⟩
        · cases h
      · cases h
    · cases h
  · cases h

theorem writesBack_of_declines {t : Tree β Ω} {c : CellId} {a : Any β} (hf : y.machine.focus = .run t)
    (h : t.Declines y.scene.world (y.found c) c a) : y.WritesBack := by
  obtain ⟨g, rfl, hg⟩ := h.eq_touch
  intro d v hv
  obtain ⟨g', a', hf', hg'⟩ := exists_of_write? hv
  cases hf.symm.trans hf'
  cases hg.symm.trans hg'
  rfl

theorem writesBack_of_touches
    (h : y.machine.Touches fun _ g => ∀ v ω w a, g v ω = .ok (.write w a) → w = v) : y.WritesBack := by
  intro c v hv
  obtain ⟨g, a, hf, hg⟩ := exists_of_write? hv
  exact h.focus _ hf _ _ _ _ hg

theorem absorbed_of_writesBack (h : y.WritesBack) (hr : y.Reflexive) : y.Absorbed := by
  intro c v hv
  obtain ⟨g, a, hf, -⟩ := exists_of_write? hv
  rw [← h c v hv]
  exact hr c (by rw [cell?, hf]; rfl) v hv

theorem Absorbed.pending (h : y.Absorbed) (hy : y.cell?.isSome) (f : FiberId)
    (hj : ∀ d, y.machine.journal.pending d = none) (d : CellId) : (y.next f).journal.pending d = none := by
  obtain ⟨c, g, hf⟩ | ⟨v, answer, hf⟩ := visit_cases hy
  · have hput : (y.next f).journal = y.machine.journal.put c (y.machine.journal.entry y.scene.store c) := by
      obtain ⟨v, x, hw, hx, e⟩ | ⟨-, e⟩ := touch_cases (f := f) hf
      · rw [Entry.set_of_same (h c v hw)] at hx
        cases hx
        exact e
      · exact e
    rw [hput, Journal.pending_put_entry, hj]
  · rw [journal_of_make hf, Journal.insertNew, Journal.pending_put, hj]
    split <;> rfl

end Moment

def History.Stands (P : Moment β Ω → Prop) (i : CommitId) (h : History β Ω) : Prop :=
  h.Concluding (fun d _ => ∀ y ∈ d.kept, P y) i

instance {P : Moment β Ω → Prop} [DecidablePred P] {i : CommitId} {h : History β Ω} :
    Decidable (h.Stands P i) :=
  inferInstanceAs (Decidable (h.Concluding _ i))

section

variable {h : History β Ω} {e : Engine β Ω} {i : CommitId} {c : Commit β Ω} {m : Machine β Ω}

section

variable {Q : CellId → (Any β → Code Ω (Access β)) → Prop}

theorem Run.kept_touches (r : Run h e) (hc : e.commits[i]? = some c) (hm : c.phase.attempt? = some m)
    (ht : c.tree.Touches Q) : ∀ y ∈ (h.diary i).kept, y.machine.Touches Q := by
  refine (r.each_attempt (P := fun h _ i t _ m => t.Touches Q → m.Touches Q ∧
    (h.diary i).Keeps (fun l _ => ∀ y ∈ l, y.machine.Touches Q) m) ?_ ?_ ?_ hc hm ht).2.kept
  · intro h e i c call _ hc hp ht
    rw [History.diary_launch hc hp]
    exact ⟨.run ht nofun, .start nofun⟩
  · intro h e i c call m r hc hp ho ih ht
    obtain ⟨hm, hd⟩ := ih ht
    rw [History.diary_step hc hp ho]
    have hk := r.tracked.known_attempt hc (by rw [hp]; rfl)
    exact ⟨hm.step, hd.step (y := ⟨m, ⟨e.store, e.world⟩⟩) (fun h _ => h)
      (Machine.logged.extends r.tracked.sound hk) fun _ hl => List.forall_mem_cons.2 ⟨hm, hl⟩⟩
  · intro h e i c m x _ _ hne _ _ ih ht
    rw [History.diary_of_ne hne]
    exact ih ht

theorem Run.stands_of_touches {P : Moment β Ω → Prop} (hP : ∀ y, y.machine.Touches Q → P y)
    (r : Run h e) (ht : ∀ c, e.commits[i]? = some c → c.tree.Touches Q) : h.Stands P i := by
  induction r with
  | start => trivial
  | @next h e x r hm ih =>
    have hprev (c : Commit β Ω) (hc : e.commits[i]? = some c) : c.tree.Touches Q := by
      obtain ⟨c', b, hmv, hb, hc'⟩ := Engine.moved hm hc (r.tracked.ne_nextCommit hc)
      obtain ⟨g, rfl, -⟩ := hb.frame
      have hprev := ht _ hc'
      exact hmv.frame.1 ▸ hprev
    exact ⟨fun _ c hc m hm _ y hy => hP y (r.kept_touches hc hm (hprev c hc) y hy), ih hprev⟩

end

theorem Run.pending_of_absorbed (r : Run h e) (hc : e.commits[i]? = some c)
    (hm : c.phase.attempt? = some m) (hk : ∀ y ∈ (h.diary i).kept, y.Absorbed) (d : CellId) :
    m.journal.pending d = none := by
  refine (r.keeps (R := fun l j => (∀ y ∈ l, y.Absorbed) → ∀ d, j.pending d = none)
    (Q := fun _ => True) ?_ ?_ ?_ (fun _ _ => trivial) hc hm).kept hk d
  · intro _ d
    rfl
  · intro l j k hR hw hl d
    obtain e | ⟨-, x, hx, hp⟩ := hw d
    · rw [Journal.pending, e]
      exact hR hl d
    · rw [Journal.pending, hx]
      exact hp
  · intro e i c y _ _ _ _ _ hy l hR hl d
    obtain ⟨hnow, hl⟩ := List.forall_mem_cons.1 hl
    exact hnow.pending hy c.fiber (hR hl) d

theorem Run.silent_of_writesBack (r : Run h e) (hb : h.Stands Moment.WritesBack i)
    (hr : h.Stands Moment.Reflexive i) : h.Silent i := by
  refine r.concluding (hb.and hr) fun {h e c m} r hc hm hk => ?_
  rw [Bool.eq_false_iff, Ne, Journal.isChanged_iff_pending]
  rintro ⟨d, hd⟩
  have hy (y : Moment β Ω) (hy : y ∈ (h.diary i).kept) : y.Absorbed :=
    Moment.absorbed_of_writesBack (hk.1 y hy) (hk.2 y hy)
  rw [r.pending_of_absorbed hc hm hy d] at hd
  cases hd

theorem Journal.Known.isValid_of_versions {j : Journal β} {s t : Store β} (hk : j.Known s)
    (ht : ∀ d ∈ s.cells, t.version d = s.version d) : j.isValid t = j.isValid s := by
  have hx (d : CellId) (x : Entry β) (hx : j.entries[d]? = some x) : x.isValid d t = x.isValid d s := by
    rw [Entry.isValid, Entry.isValid, ht d (hk d x hx).cell]
  rw [Bool.eq_iff_iff, isValid_iff, isValid_iff]
  refine forall_congr' fun d => forall_congr' fun x => forall_congr' fun h => ?_
  rw [hx d x h]

end

/-- An operation that declines answers as it should. It leaves no trace in the journal if the value it has
found is equal to itself, or is a pending write anyway. Any other value it leaves to be published. A
commit that only ever declines, and finds only values that are equal to themselves, publishes nothing,
leaves the attempts of the others as valid as they were, and calls nobody. -/
theorem decline_moves_nothing :
    (∀ (t : Tree β Ω) (c : CellId) (v a : Any β) (x : Scene β Ω) (j : Journal β) (f : FiberId)
        (env : Any β), t.Declines x.world v c a → (j.entry x.store c).current = v →
      ∃ j', (∀ o k, t.Evaluates f env j [x] o k ↔ o = .success a ∧ k = j') ∧
        (v.same v ∨ (j.pending c).isSome ∧ j.News → j.Unmoved x.store c j') ∧
        (v.same v = false → j.pending c = none →
          j'.pending c = some v ∧ (j.isValid x.store → j'.analyze x.store = .readWrite))) ∧
    (∀ (y : Moment β Ω) (t : Tree β Ω) (c : CellId) (a : Any β), y.machine.focus = .run t →
      t.Declines y.scene.world (y.found c) c a → y.WritesBack) ∧
    ∀ (h : History β Ω) (e : Engine β Ω) (i : CommitId), Run h e → e.admits (.advance i) →
      History.Stands Moment.WritesBack i ((e, .advance i) :: h) →
      History.Stands Moment.Reflexive i ((e, .advance i) :: h) →
      (∀ d ∈ e.store.cells, (e.act (.advance i)).store.version d = e.store.version d) ∧
        (∀ k, k ≠ i → (e.act (.advance i)).commits[k]? = e.commits[k]?) ∧
        (∀ k c j, k ≠ i → e.commits[k]? = some c → c.phase.journal? = some j →
          j.isValid (e.act (.advance i)).store = j.isValid e.store) ∧
        (e.act (.advance i)).schedulers = e.schedulers ∧ (e.act (.advance i)).wakes = e.wakes ∧
        (e.act (.advance i)).unparked = e.unparked := by
  refine ⟨fun t c v a x j f env h hv => ?_, fun y t c a hf h => Moment.writesBack_of_declines hf h,
    fun h e i r ha hb hr => ?_⟩
  · obtain ⟨y, hy⟩ : ∃ y, (j.entry x.store c).set v = .ok y := Entry.set_isOk (by rw [hv])
    have heval (o : Outcome β) (k : Journal β) :
        t.Evaluates f env j [x] o k ↔ o = .success a ∧ k = j.put c y := by
      rw [h.evaluates_iff hv, Journal.touch_write, hy, Prod.mk.injEq]
    have he := (heval _ _).2 ⟨rfl, rfl⟩
    exact ⟨j.put c y, heval, fun hs => h.unmoved hv hs he, fun hs hp => h.moved hv hs hp he⟩
  · obtain ⟨hversion, hcommits, hrest⟩ :=
      r.advance_of_silent ha ((r.next ha).silent_of_writesBack hb hr)
    exact ⟨hversion, hcommits, fun k c j _ hc hj =>
      ((r.tracked.known k c hc).2 j hj).isValid_of_versions hversion, hrest⟩

section

open Scenario (Base V Val)

def declined : Tx Unit .unit .never (.unit : Ty Base) :=
  (⟨⟨1⟩⟩ : Ref V).updateSome fun _ => pure none

def declining (v : Val) : List (Move Base Unit) :=
  let turns n i := List.replicate n (Move.advance ⟨i⟩)
  [.alloc ⟨V, v⟩, .commit (.touch ⟨1⟩ fun _ _ => .ok (.leave .retry)) .never .unit none,
    .commit declined.tree .never .unit none, .poll ⟨1⟩ (.task ⟨5⟩)] ++ turns 6 1 ++
  [.settle ⟨1⟩, .runSync ⟨2⟩] ++ turns 3 2

theorem declining_writesBack {v : Val} {p : History Base Unit × Engine Base Unit}
    (hp : p = Engine.play { world := () } [] (declining v)) (r : Run p.1 p.2)
    (ha : p.2.admits (.advance ⟨2⟩)) :
    History.Stands Moment.WritesBack ⟨2⟩ ((p.2, .advance ⟨2⟩) :: p.1) := by
  refine (r.next ha).stands_of_touches (fun y => Moment.writesBack_of_touches) fun c hc =>
    (r.next ha).tree_touches (fun x hx t E A s hxm => ?_) hc
  obtain rfl | hx := List.mem_cons.1 hx
  · cases hxm
  have hm : x.2 ∈ declining v := Engine.mem_of_mem_play (hp ▸ hx)
  rw [hxm] at hm
  simp only [declining, List.reduceReplicate, List.cons_append, List.nil_append, List.mem_cons, reduceCtorEq,
    Move.commit.injEq, List.not_mem_nil, or_self, or_false, false_or] at hm
  obtain ⟨rfl, -⟩ | ⟨rfl, -⟩ := hm
  · intro v ω w a h
    cases h
  · refine Ref.modify_touches fun x ω p h => ?_
    cases h
    rfl

theorem declines_declined (v : Val) : declined.tree.Declines () ⟨V, v⟩ ⟨1⟩ .unit := .updateSome rfl

theorem decline_moves_nothing_five :
    let x : Scene Base Unit := ⟨(({} : Store Base).alloc ⟨V, .int 5⟩).2, ()⟩
    let p := Engine.play { world := () } [] (declining (.int 5))
    let e := p.2.act (.advance ⟨2⟩)
    (∃ j, declined.tree.Evaluates ⟨0⟩ .unit {} [x] (.success .unit) j ∧
      Journal.Unmoved {} x.store ⟨1⟩ j) ∧
    Moment.WritesBack ⟨.start declined.tree .unit, x⟩ ∧
    (∃ c m, p.2.commits[(⟨2⟩ : CommitId)]? = some c ∧ c.phase.attempt? = some m ∧
      m.Concludes p.2.store) ∧
    e.store.version ⟨1⟩ = p.2.store.version ⟨1⟩ ∧
    e.commits[(⟨1⟩ : CommitId)]? = p.2.commits[(⟨1⟩ : CommitId)]? ∧ e.wakes = p.2.wakes := by
  obtain ⟨hop, hmoment, hturn⟩ := decline_moves_nothing (β := Base) (Ω := Unit)
  intro x p e
  refine ⟨?_, hmoment _ _ ⟨1⟩ .unit rfl (declines_declined (.int 5)), ?_, ?_⟩
  · obtain ⟨j, heval, hunmoved, -⟩ := hop _ _ _ _ x {} ⟨0⟩ .unit (declines_declined (.int 5)) rfl
    exact ⟨j, (heval _ _).2 ⟨rfl, rfl⟩, hunmoved (.inl (by decide))⟩
  · have hend : ∀ c ∈ p.2.commits[(⟨2⟩ : CommitId)]?, ∀ m ∈ c.phase.attempt?,
      m.Concludes p.2.store := by decide +kernel
    obtain ⟨c, m, hc, hm⟩ : ∃ c m, p.2.commits[(⟨2⟩ : CommitId)]? = some c ∧
        c.phase.attempt? = some m := ⟨_, _, by with_unfolding_all rfl, rfl⟩
    exact ⟨c, m, hc, hm, hend c hc m hm⟩
  · have r : Run p.1 p.2 := (Run.start ()).play (by decide +kernel)
    have ha : p.2.admits (.advance ⟨2⟩) := by decide +kernel
    obtain ⟨hversion, hcommits, -, -, hwakes, -⟩ :=
      hturn p.1 p.2 ⟨2⟩ r ha (declining_writesBack rfl r ha) (by decide +kernel)
    exact ⟨hversion ⟨1⟩ (by decide +kernel), hcommits ⟨1⟩ (by decide), hwakes⟩

theorem published_declined :
    let x : Scene Base Unit := ⟨(({} : Store Base).alloc ⟨V, .nan⟩).2, ()⟩
    let p := Engine.play { world := () } [] (declining .nan)
    let e := p.2.act (.advance ⟨2⟩)
    (∃ j, declined.tree.Evaluates ⟨0⟩ .unit {} [x] (.success .unit) j ∧
      Journal.analyze {} x.store = .readOnly ∧ j.analyze x.store = .readWrite) ∧
    Run p.1 p.2 ∧ p.2.admits (.advance ⟨2⟩) ∧
    History.Stands Moment.WritesBack ⟨2⟩ ((p.2, .advance ⟨2⟩) :: p.1) ∧
    e.store.version ⟨1⟩ ≠ p.2.store.version ⟨1⟩ ∧
    p.2.wakes.isEmpty ∧
    (e.play [] (List.replicate 3 (.advance ⟨2⟩))).2.wakes[(⟨5⟩ : WakerId)]? = some 1 := by
  -- A value that is not equal to itself. The commit that declines to write publishes it once more, and wakes
  -- the one that waits for another value.
  intro x p e
  have r : Run p.1 p.2 := (Run.start ()).play (by decide +kernel)
  have ha : p.2.admits (.advance ⟨2⟩) := by decide +kernel
  refine ⟨?_, r, ha, declining_writesBack rfl r ha, ?_, by decide +kernel, by decide +kernel⟩
  · have hn := declines_declined .nan
    obtain ⟨j, hj⟩ : ∃ j, declined.tree.Evaluates ⟨0⟩ .unit {} [x] (.success .unit) j :=
      ⟨_, (hn.evaluates_iff rfl).2 rfl⟩
    exact ⟨j, hj, rfl, (hn.moved rfl (by decide) rfl hj).2 rfl⟩
  · intro hv
    have := congrArg Version.time hv
    revert this
    decide +kernel

end

end TransactionalMemory
