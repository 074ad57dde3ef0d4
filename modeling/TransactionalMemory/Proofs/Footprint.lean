import TransactionalMemory.Proofs.Alone
import TransactionalMemory.Scenario.Val

namespace TransactionalMemory

variable {β : Type} [Universe β] {Ω : Type}

theorem Store.value_alloc {s : Store β} {c : CellId} (v : Any β) (h : s.nextCell ≠ c) :
    (s.alloc v).2.value c = s.value c := by
  rw [value, version_alloc, if_neg h, value]

namespace Journal

variable {j k : Journal β} {c : CellId}

theorem not_creates (h : j.entries[c]? = none) : ¬ j.Creates c := by
  rintro ⟨x, hx, -⟩
  rw [h] at hx
  cases hx

theorem Like.getElem?_eq_none_iff (h : j.Like k) : j.entries[c]? = none ↔ k.entries[c]? = none := by
  rw [← Option.map_eq_none_iff (f := Entry.seen), h c, Option.map_eq_none_iff]

theorem Like.pending_eq (h : j.Like k) :
    (j.entries[c]?).bind (·.pending) = (k.entries[c]?).bind (·.pending) := by
  have hc := congrArg (Option.bind · fun p => p.2.1) (h c)
  simpa [Entry.seen, Option.bind_map, Function.comp_def] using hc

end Journal

namespace Machine

/-- Where a run is that has the cells to itself. It makes one step for each number, the latest first,
and the number is for the cell that the step may make. -/
def after (f : FiberId) (m : Machine β Ω) (s : Store β) (ω : Ω) :
    List CellId → Machine β Ω × Store β × Ω
  | [] => (m, s, ω)
  | n :: ns =>
    let (m, s, ω) := m.after f s ω ns
    m.step f { s with nextCell := n } ω

def grants (m : Machine β Ω) (n : CellId) : Bool :=
  match m.focus with
  | .run (.make _ _) => (m.journal.entries[n]?).isNone
  | _ => true

/-- No cell that the run makes is one it has touched before. -/
def supplied (f : FiberId) (m : Machine β Ω) (s : Store β) (ω : Ω) : List CellId → Bool
  | [] => true
  | n :: ns => m.supplied f s ω ns && (m.after f s ω ns).1.grants n

variable {m n : Machine β Ω} {f : FiberId} {s s' t t' : Store β} {ω ω' : Ω} {ns : List CellId}

theorem Pure.after (h : m.Pure) : (m.after f s ω ns).1.Pure := by
  induction ns with
  | nil => exact h
  | cons n ns ih => exact ih.step

theorem Logged.extends_of_grants {j : Journal β} (h : Logged m s j t) (hg : m.grants s.nextCell) :
    m.journal.Extends j := by
  cases h with
  | keep => exact .refl
  | touch f hf => exact Journal.extends_touch f
  | rollback k => exact Journal.extends_rollback k
  | make hf =>
    apply Journal.extends_put
    intro y hy
    simp [grants, hf, hy] at hg

theorem Logged.value_eq {j : Journal β} {c : CellId} (h : Logged m s j t)
    (hc : j.entries[c]? = none) : t.value c = s.value c := by
  simp only [Store.value, Store.version, Store.cell, h.getElem?_cells (Journal.not_creates hc)]

theorem Like.step_of_touched (h : n.Like m) (hp : m.Pure) (hn : t.nextCell = s.nextCell)
    (hg : m.grants s.nextCell)
    (old : ∀ c : CellId, m.journal.entries[c]? = none →
      s.value c = s'.value c ∧ t.value c = t'.value c)
    (same : ∀ (c : CellId) (x : Entry β), (m.step f s ω).1.journal.entries[c]? = some x →
      x.created = false → t'.value c = s'.value c) :
    (n.step f t ω').1.Like (m.step f s ω).1 ∧
      ∀ c : CellId, (m.step f s ω).1.journal.entries[c]? = none →
        (m.step f s ω).2.1.value c = s'.value c ∧ (n.step f t ω').2.1.value c = t'.value c := by
  have hl : (n.step f t ω').1.Like (m.step f s ω).1 := by
    refine h.step hp (fun c g hf => h.seen_entry fun hc => ?_) fun _ _ _ => hn
    obtain ⟨x, hx, hcr, -⟩ := entry_of_touch (f := f) (s := s) (ω := ω) hf hc
    obtain ⟨hs, ht⟩ := old c hc
    rw [hs, ht, same c x hx hcr]
  refine ⟨hl, fun c hc => ?_⟩
  have hm := logged (m := m) (f := f) (s := s) (ω := ω)
  have hm' := logged (m := n) (f := f) (s := t) (ω := ω')
  rw [hm.value_eq hc, hm'.value_eq (hl.journal.getElem?_eq_none_iff.2 hc)]
  exact old c ((hm.extends_of_grants hg).getElem?_eq_none hc)

theorem like_after (hp : m.Pure) (hn : m.supplied f s ω ns)
    (h : ∀ (c : CellId) (x : Entry β), (m.after f s ω ns).1.journal.entries[c]? = some x →
      x.created = false → s'.value c = s.value c) :
    (m.after f s' ω' ns).1.Like (m.after f s ω ns).1 ∧
      ∀ c : CellId, (m.after f s ω ns).1.journal.entries[c]? = none →
        (m.after f s ω ns).2.1.value c = s.value c ∧
          (m.after f s' ω' ns).2.1.value c = s'.value c := by
  induction ns with
  | nil => exact ⟨.refl, fun c _ => ⟨rfl, rfl⟩⟩
  | cons n ns ih =>
    simp only [supplied, Bool.and_eq_true] at hn
    have hx := logged (m := (m.after f s ω ns).1) (f := f)
      (s := { (m.after f s ω ns).2.1 with nextCell := n }) (ω := (m.after f s ω ns).2.2)
    obtain ⟨hl, old⟩ := ih hn.1 fun c x hc hcr => by
      obtain ⟨p, hp⟩ := hx.extends_of_grants hn.2 c x hc
      exact h c { x with pending := p } hp hcr
    exact hl.step_of_touched (s := { (m.after f s ω ns).2.1 with nextCell := n })
      (t := { (m.after f s' ω' ns).2.1 with nextCell := n }) hp.after rfl hn.2 old h

end Machine

section

variable {t : Tree β Ω} {f : FiberId} {env : Any β} {s s' : Store β} {ω : Ω} {ns : List CellId}
  {o : Outcome β}

/-- What a tree comes to on one store it comes to on every store that holds the same in the cells it
has touched there, and it touches the same cells, makes the same and leaves the same writes. Both runs
give the cells they make the same numbers, since code may look at these. -/
theorem Tree.Pure.footprint (ht : t.Pure) (hn : (Machine.start t env).supplied f s ω ns)
    (ho : ((Machine.start t env).after f s ω ns).1.outcome? = some o)
    (h : ∀ (c : CellId) (x : Entry β),
      ((Machine.start t env).after f s ω ns).1.journal.entries[c]? = some x → x.created = false →
        s'.value c = s.value c) (ω' : Ω) :
    let j := ((Machine.start t env).after f s ω ns).1.journal
    let n := ((Machine.start t env).after f s' ω' ns).1
    n.outcome? = some o ∧ (∀ c : CellId, c ∈ n.journal.entries ↔ c ∈ j.entries) ∧
      (∀ c, n.journal.Creates c ↔ j.Creates c) ∧
      ∀ c : CellId, (n.journal.entries[c]?).bind (·.pending) = (j.entries[c]?).bind (·.pending) := by
  intro j n
  have hl : n.Like ((Machine.start t env).after f s ω ns).1 :=
    (Machine.like_after (Machine.pure_start ht) hn h).1
  have hj : n.journal.Like j := hl.journal
  refine ⟨hl.outcome?_eq.trans ho, fun c => ?_, fun c => ⟨hj.creates, hj.symm.creates⟩,
    fun c => hj.pending_eq⟩
  rw [← Std.ExtTreeMap.isSome_getElem?_iff_mem, ← Std.ExtTreeMap.isSome_getElem?_iff_mem,
    Option.isSome_iff_ne_none, Option.isSome_iff_ne_none, ne_eq, hj.getElem?_eq_none_iff]

end

def detour : Tree Scenario.Base Unit :=
  .orElse
    (.onSuccess (.touch ⟨1⟩ fun _ => pure (.write ⟨.nat, (5 : Nat)⟩ .unit)) fun _ _ => .done .retry)
    (.onSuccess (.make ⟨.nat, (9 : Nat)⟩ fun _ => .unit) fun _ _ =>
      .touch ⟨2⟩ fun v => pure (.leave (.success v)))

def threeCells (n : Nat) : Store Scenario.Base :=
  let s : Store Scenario.Base := ((({} : Store _).alloc ⟨.nat, (3 : Nat)⟩).2.alloc ⟨.nat, (4 : Nat)⟩).2
  (s.alloc ⟨.nat, n⟩).2

theorem footprint_detour :
    let n := ((Machine.start detour .unit).after ⟨1⟩ (threeCells 8) () (.replicate 10 ⟨7⟩)).1
    n.outcome? = some (.success ⟨.nat, (4 : Nat)⟩) ∧ (⟨1⟩ : CellId) ∈ n.journal.entries ∧
      n.journal.Creates ⟨7⟩ ∧ (n.journal.entries[(⟨1⟩ : CellId)]?).bind (·.pending) = none := by
  have ht : detour.Pure :=
    ⟨⟨fun _ _ _ => rfl, fun _ _ _ => rfl, fun _ _ _ _ _ _ => rfl⟩,
      trivial, fun _ _ _ => rfl, fun _ _ _ _ _ => rfl⟩
  have hn : (Machine.start detour .unit).supplied ⟨1⟩ (threeCells 6) () (.replicate 10 ⟨7⟩) := by
    decide +kernel
  have ho : ((Machine.start detour .unit).after ⟨1⟩ (threeCells 6) ()
      (.replicate 10 ⟨7⟩)).1.outcome? = some (.success ⟨.nat, (4 : Nat)⟩) := by
    with_unfolding_all rfl
  -- The run has not touched the third cell, in which alone the stores differ.
  have h₃ : ((Machine.start detour .unit).after ⟨1⟩ (threeCells 6) ()
      (.replicate 10 ⟨7⟩)).1.journal.entries[(⟨3⟩ : CellId)]? = none := by
    with_unfolding_all rfl
  have hv : ∀ c x, ((Machine.start detour .unit).after ⟨1⟩ (threeCells 6) ()
      (.replicate 10 ⟨7⟩)).1.journal.entries[c]? = some x → x.created = false →
      (threeCells 8).value c = (threeCells 6).value c := by
    intro c x hx _
    have hc : (⟨3⟩ : CellId) ≠ c := by
      rintro rfl
      rw [h₃] at hx
      cases hx
    exact (Store.value_alloc _ hc).trans (Store.value_alloc _ hc).symm
  obtain ⟨ho', hmem, hmade, hpend⟩ := ht.footprint hn ho hv ()
  exact ⟨ho', (hmem _).2 (by decide +kernel), (hmade _).2 ⟨_, by with_unfolding_all rfl, rfl⟩,
    (hpend _).trans (by with_unfolding_all rfl)⟩

end TransactionalMemory
