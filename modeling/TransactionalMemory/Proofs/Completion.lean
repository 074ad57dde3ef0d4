import TransactionalMemory.Promise
import TransactionalMemory.Proofs.Accounts
import TransactionalMemory.Proofs.Snapshot
import TransactionalMemory.Proofs.Usage

/-! Promises are completed at most once. Of all completions that stand in published attempts one at most
says that it did it, and its result is what the promise holds from then on. -/

namespace TransactionalMemory

variable {β : Type} [Universe β] {Ω : Type} {E A : Ty β}

namespace Promise

def holding (_ : Promise E A) (r : Option (Except E.El A.El)) : Any β := ⟨.option (.result E A), r⟩

def result? (_ : Promise E A) (v : Any β) : Option (Except E.El A.El) :=
  (show Option (Option (Except E.El A.El)) from v.as (.option (.result E A))).join

def look (p : Promise E A) (v : Any β) : Code Ω (Access β) :=
  match v.as (.option (.result E A)) with
  | some r => pure (.leave (.success (p.holding r)))
  | none => pure (.leave (mismatch (.option (.result E A))))

def fulfil (p : Promise E A) (r : Except E.El A.El) (v : Any β) : Code Ω (Access β) :=
  match v.as (.option (.result E A)) with
  | some (none : Option (Except E.El A.El)) => pure (.write (p.holding (some r)) ⟨.bool, true⟩)
  | some (some old : Option (Except E.El A.El)) =>
    pure (.write (p.holding (some old)) ⟨.bool, false⟩)
  | none => pure (.leave (mismatch (.option (.result E A))))

variable {R E' : Ty β} (p : Promise E A)

theorem poll_tree : (p.poll : Tx Ω R E' _).tree = .touch p.cell p.look := by
  refine congrArg (Tree.touch p.cell) (funext fun v => ?_)
  unfold look
  cases v.as (.option (.result E A)) <;> rfl

theorem complete_tree (r : Except E.El A.El) :
    (p.complete r : Tx Ω R E' _).tree = .touch p.cell (p.fulfil r) := by
  refine congrArg (Tree.touch p.cell) (funext fun v => ?_)
  unfold fulfil
  cases v.as (.option (.result E A)) with
  | none => rfl
  | some old => cases (old : Option (Except E.El A.El)) <;> rfl

variable {p} {a b : Option (Except E.El A.El)} {r : Except E.El A.El}

@[simp] theorem as_holding : (p.holding a).as (.option (.result E A)) = some a := Any.as_self _ _

@[simp] theorem result?_holding : p.result? (p.holding a) = a := by
  simp [result?]

theorem holding_inj (h : p.holding a = p.holding b) : a = b := by
  simpa using congrArg p.result? h

theorem isSome_of_same (h : (p.holding a).same (p.holding (some r))) : a.isSome := by
  cases a with
  | some => rfl
  | none =>
    have hv : (p.holding (some r)).as (p.holding none).ty = some (some r) := as_holding
    rw [Any.same, hv] at h
    cases h

end Promise

def Store.result? (s : Store β) (p : Promise E A) : Option (Except E.El A.El) :=
  p.result? (s.value p.cell)

def Any.isTrue (v : Any β) : Bool :=
  match v.as .bool with
  | some b => show Bool from b
  | none => false

namespace Moment

def completes? (y : Moment β Ω) (p : Promise E A) : Option (Except E.El A.El) :=
  match y.machine.focus with
  | .run (.touch c g) =>
    if c = p.cell then
      match g (y.found c) y.scene.world with
      | .ok (.write v a) => if (y.found c).ty = v.ty && a.isTrue then p.result? v else none
      | _ => none
    else none
  | _ => none

end Moment

def Promise.Allows (p : Promise E A) (c : CellId) (g : Any β → Code Ω (Access β)) : Prop :=
  c = p.cell → .touch c g = (p.poll : Tx Ω .unit .never _).tree ∨
    ∃ r, .touch c g = (p.complete r : Tx Ω .unit .never _).tree

theorem Promise.touches_poll {p : Promise E A} {R E' : Ty β} :
    (p.poll : Tx Ω R E' _).tree.Touches p.Allows := fun _ => .inl rfl

theorem Promise.touches_complete {p : Promise E A} {R E' : Ty β} (r : Except E.El A.El) :
    (p.complete r : Tx Ω R E' _).tree.Touches p.Allows := fun _ => .inr ⟨r, rfl⟩

/-- All that a move does with the promise is to poll it or to complete it, and its cell is made empty. -/
structure Promise.Honored (p : Promise E A) (x : Engine β Ω × Move β Ω) : Prop where
  used : ∀ i c m d g, x.2 = .advance i → x.1.commits[i]? = some c → c.phase.attempt? = some m →
    m.focus = .run (.touch d g) → p.Allows d g
  made : p.cell ∉ x.1.store.cells → p.cell ∈ (x.1.act x.2).store.cells →
    (x.1.act x.2).store.value p.cell = p.holding none

def History.completions (p : Promise E A) : History β Ω → List (Except E.El A.El)
  | [] => []
  | (e, .advance i) :: h =>
    (if Engine.finishes i (e, .advance i) then (History.diary i h).kept.filterMap (·.completes? p)
      else []) ++ completions p h
  | _ :: h => completions p h

namespace Promise

/-- What the visits that stand have made of the promise: they have found it at `a` and leave it at `b`. -/
structure Stands (p : Promise E A) (l : List (Moment β Ω)) (a b : Option (Except E.El A.El)) :
    Prop where
  stable : a.isSome → b = a
  completions : l.filterMap (·.completes? p) = if a.isSome then [] else b.toList
  looks : ∀ y ∈ l, y.machine.focus = .run (.touch p.cell p.look) →
    y.found p.cell = p.holding none ∨ y.found p.cell = p.holding b

def Agrees (p : Promise E A) (l : List (Moment β Ω)) (j : Journal β) : Prop :=
  match j.entries[p.cell]? with
  | none => ∀ y ∈ l, y.cell? ≠ some p.cell
  | some x => ∀ a, x.expected.value = p.holding a → ∃ b, x.current = p.holding b ∧ p.Stands l a b

variable {p : Promise E A} {l : List (Moment β Ω)} {j k : Journal β} {y : Moment β Ω} {f : FiberId}
  {a b : Option (Except E.El A.El)}

theorem cell?_of_touch {c : CellId} {g : Any β → Code Ω (Access β)}
    (h : y.machine.focus = .run (.touch c g)) : y.cell? = some c := by
  simp [Moment.cell?, h]

theorem completes?_of_ne (h : y.cell? ≠ some p.cell) : y.completes? p = none := by
  unfold Moment.completes?
  split
  · rename_i c g hf
    rw [if_neg]
    rintro rfl
    exact h (cell?_of_touch hf)
  · rfl

theorem Stands.of_not_visited (h : ∀ y ∈ l, y.cell? ≠ some p.cell) : p.Stands l a a where
  stable _ := rfl
  completions := by
    have hn : l.filterMap (·.completes? p) = [] :=
      List.filterMap_eq_nil_iff.2 fun y hy => completes?_of_ne (h y hy)
    cases a <;> simp [hn]
  looks y hy hf := absurd (cell?_of_touch hf) (h y hy)

theorem Stands.idle (h : p.Stands l a b) (hc : y.completes? p = none)
    (hl : y.machine.focus = .run (.touch p.cell p.look) → y.found p.cell = p.holding b) :
    p.Stands (y :: l) a b where
  stable := h.stable
  completions := by simp only [List.filterMap_cons, hc, h.completions]
  looks := List.forall_mem_cons.2 ⟨fun hf => .inr (hl hf), h.looks⟩

theorem Stands.complete {r : Except E.El A.El} (h : p.Stands l a none)
    (hc : y.completes? p = some r) (hl : y.found p.cell = p.holding none) :
    p.Stands (y :: l) a (some r) := by
  obtain rfl : a = none := by
    cases ha : a with
    | none => rfl
    | some x => exact (ha.symm.trans (h.stable (by rw [ha]; rfl)).symm)
  refine ⟨nofun, ?_, List.forall_mem_cons.2 ⟨fun _ => .inl hl, fun y hy hf => ?_⟩⟩
  · simp only [List.filterMap_cons, hc, h.completions]
    rfl
  · exact .inl ((h.looks y hy hf).elim id id)

theorem Agrees.start : p.Agrees ([] : List (Moment β Ω)) {} := by
  simp [Agrees]

theorem Agrees.wide (h : p.Agrees l j) (hw : j.Widens k) : p.Agrees l k := by
  unfold Agrees at h ⊢
  rcases hw p.cell with he | ⟨hn, x, hx, hp⟩
  · rw [he]
    exact h
  · rw [hn] at h
    rw [hx]
    intro a ha
    refine ⟨a, ?_, .of_not_visited h⟩
    rw [Entry.current, hp]
    exact ha

theorem Agrees.entry (h : p.Agrees l j) {s : Store β}
    (ha : (j.entry s p.cell).expected.value = p.holding a) :
    ∃ b, (j.entry s p.cell).current = p.holding b ∧ p.Stands l a b := by
  unfold Agrees at h
  cases hx : j.entries[p.cell]? with
  | none =>
    simp only [hx] at h
    simp only [Journal.entry, hx] at ha ⊢
    exact ⟨a, ha, .of_not_visited h⟩
  | some x =>
    simp only [hx] at h
    rw [Journal.entry_eq_of_getElem? hx] at ha ⊢
    exact h a ha

theorem Agrees.put_ne {c : CellId} {x : Entry β} (h : p.Agrees l j) (hc : c ≠ p.cell)
    (hy : y.cell? = some c) : p.Agrees (y :: l) (j.put c x) := by
  have hy' : y.cell? ≠ some p.cell := by
    rw [hy]
    exact fun he => hc (Option.some.inj he)
  unfold Agrees at h ⊢
  rw [Journal.getElem?_put, if_neg hc]
  cases hx : j.entries[p.cell]? with
  | none =>
    simp only [hx] at h ⊢
    exact List.forall_mem_cons.2 ⟨hy', h⟩
  | some x =>
    simp only [hx] at h ⊢
    intro a ha
    obtain ⟨b, hb, hs⟩ := h a ha
    exact ⟨b, hb, hs.idle (completes?_of_ne hy') fun hf => absurd (cell?_of_touch hf) hy'⟩

theorem Agrees.put {x : Entry β} (h : ∀ a, x.expected.value = p.holding a →
    ∃ b, x.current = p.holding b ∧ p.Stands l a b) : p.Agrees l (j.put p.cell x) := by
  unfold Agrees
  rw [Journal.getElem?_put, if_pos rfl]
  exact h

theorem Agrees.poll (h : p.Agrees l y.machine.journal)
    (hf : y.machine.focus = .run (.touch p.cell p.look)) :
    p.Agrees (y :: l) (y.next f).journal := by
  have hn : y.write? p.cell = none ∧ y.completes? p = none := by
    simp only [Moment.write?, Moment.completes?, hf, if_true, look]
    cases (y.found p.cell).as (.option (.result E A)) <;> exact ⟨rfl, rfl⟩
  rcases Moment.touch_cases (f := f) hf with ⟨v, x, hv, -⟩ | ⟨-, hj⟩
  · cases hn.1.symm.trans hv
  · rw [hj]
    refine .put fun a ha => ?_
    obtain ⟨b, hb, hs⟩ := h.entry ha
    exact ⟨b, hb, hs.idle hn.2 fun _ => hb⟩

theorem current_of_fulfil {x z : Entry β} {r : Except E.El A.El} (hx : x.current = p.holding b)
    (ha : x.expected.value = p.holding a) (hab : a.isSome → b = a) (hb : b.isSome → b = some r)
    (hz : x.set (p.holding (some r)) = .ok z) : z.current = p.holding (some r) := by
  unfold Entry.set at hz
  split at hz
  · split at hz
    · rename_i hs
      cases hz
      rw [hx] at hs
      rw [hx, hb (isSome_of_same hs)]
    · split at hz
      · rename_i hs
        cases hz
        rw [ha] at hs
        have hsome := isSome_of_same hs
        have hba := hab hsome
        subst hba
        rw [← hb hsome]
        exact ha
      · cases hz
        rfl
  · cases hz

section

variable {r : Except E.El A.El}

theorem fulfil_none (ω : Ω) :
    p.fulfil r (p.holding none) ω = .ok (.write (p.holding (some r)) ⟨.bool, true⟩) := by
  unfold fulfil
  rw [as_holding]
  rfl

theorem fulfil_some (old : Except E.El A.El) (ω : Ω) :
    p.fulfil r (p.holding (some old)) ω = .ok (.write (p.holding (some old)) ⟨.bool, false⟩) := by
  unfold fulfil
  rw [as_holding]
  rfl

theorem isTrue_bool (b : Bool) : (⟨.bool, b⟩ : Any β).isTrue = b := by
  have h : (⟨.bool, b⟩ : Any β).as .bool = some b := Any.as_self _ _
  simp only [Any.isTrue, h]

theorem fulfil_free (hf : y.machine.focus = .run (.touch p.cell (p.fulfil r)))
    (hy : y.found p.cell = p.holding none) :
    y.write? p.cell = some (p.holding (some r)) ∧ y.completes? p = some r := by
  simp only [Moment.write?, Moment.completes?, hf, hy, fulfil_none, if_true, isTrue_bool,
    result?_holding, Bool.and_true, decide_eq_true_eq]
  simp [holding]

theorem fulfil_taken {old : Except E.El A.El}
    (hf : y.machine.focus = .run (.touch p.cell (p.fulfil r)))
    (hy : y.found p.cell = p.holding (some old)) :
    y.write? p.cell = some (p.holding (some old)) ∧ y.completes? p = none := by
  simp only [Moment.write?, Moment.completes?, hf, hy, fulfil_some, if_true, isTrue_bool,
    Bool.and_false]
  simp

end

theorem Agrees.fulfil {r : Except E.El A.El} (h : p.Agrees l y.machine.journal)
    (hf : y.machine.focus = .run (.touch p.cell (p.fulfil r))) :
    p.Agrees (y :: l) (y.next f).journal := by
  rcases Moment.touch_cases (f := f) hf with ⟨v, x, hv, hx, hj⟩ | ⟨hn, hj⟩
  · rw [hj]
    refine .put fun a ha => ?_
    have ha' : (y.machine.journal.entry y.scene.store p.cell).expected.value = p.holding a := by
      obtain ⟨q, rfl⟩ := Entry.eq_of_set hx
      exact ha
    obtain ⟨b, hb, hs⟩ := h.entry ha'
    cases b with
    | none =>
      obtain ⟨hw, hc⟩ := fulfil_free hf hb
      cases hv.symm.trans hw
      exact ⟨some r, current_of_fulfil hb ha' hs.stable nofun hx, hs.complete hc hb⟩
    | some old =>
      obtain ⟨hw, hc⟩ := fulfil_taken hf hb
      cases hv.symm.trans hw
      exact ⟨some old, current_of_fulfil hb ha' hs.stable (fun _ => rfl) hx, hs.idle hc fun _ => hb⟩
  · rw [hj]
    refine .put fun a ha => ?_
    obtain ⟨b, hb, -⟩ := h.entry ha
    cases b with
    | none => cases hn.symm.trans (fulfil_free hf hb).1
    | some old => cases hn.symm.trans (fulfil_taken hf hb).1

theorem Agrees.make {v : Any β} {answer : CellId → Any β} (h : p.Agrees l y.machine.journal)
    (hk : y.machine.journal.Known y.scene.store) (hs : y.scene.store.Sound)
    (hf : y.machine.focus = .run (.make v answer)) : p.Agrees (y :: l) (y.next f).journal := by
  have hy : y.cell? = some y.scene.store.nextCell := by simp [Moment.cell?, hf]
  rw [Moment.journal_of_make hf, Journal.insertNew]
  by_cases hc : y.scene.store.nextCell = p.cell
  · rw [hc]
    refine .put fun a ha => ⟨a, ha, ?_⟩
    have hn : y.machine.journal.entries[p.cell]? = none :=
      hk.getElem?_eq_none (hc ▸ hs.nextCell_notMem)
    unfold Agrees at h
    rw [hn] at h
    refine (Stands.of_not_visited h).idle ?_ ?_
    · simp [Moment.completes?, hf]
    · intro hl
      cases hf.symm.trans hl
  · exact h.put_ne hc hy

theorem Honored.code {e : Engine β Ω} {i : CommitId} {c : Commit β Ω} {m : Machine β Ω}
    {g : Any β → Code Ω (Access β)} (h : p.Honored (e, .advance i)) (hc : e.commits[i]? = some c)
    (hm : c.phase.attempt? = some m) (hf : m.focus = .run (.touch p.cell g)) :
    g = p.look ∨ ∃ r, g = p.fulfil r := by
  rcases h.used i c m _ g rfl hc hm hf rfl with he | ⟨r, he⟩
  · rw [poll_tree] at he
    exact .inl (Tree.touch.inj he).2
  · rw [complete_tree] at he
    exact .inr ⟨r, (Tree.touch.inj he).2⟩

theorem Agrees.visit (h : p.Agrees l y.machine.journal)
    (hk : y.machine.journal.Known y.scene.store) (hs : y.scene.store.Sound)
    (hc : ∀ g, y.machine.focus = .run (.touch p.cell g) → g = p.look ∨ ∃ r, g = p.fulfil r)
    (hy : y.cell?.isSome) : p.Agrees (y :: l) (y.next f).journal := by
  rcases Moment.visit_cases hy with ⟨c, g, hf⟩ | ⟨v, answer, hf⟩
  · by_cases hcell : c = p.cell
    · subst hcell
      rcases hc g hf with rfl | ⟨r, rfl⟩
      · exact h.poll hf
      · exact h.fulfil hf
    · have hj : ∃ x, (y.next f).journal = y.machine.journal.put c x := by
        rcases Moment.touch_cases (f := f) hf with ⟨_, x, _, _, hj⟩ | ⟨_, hj⟩
        · exact ⟨x, hj⟩
        · exact ⟨_, hj⟩
      obtain ⟨x, hj⟩ := hj
      rw [hj]
      exact h.put_ne hcell (cell?_of_touch hf)
  · exact h.make hk hs hf

end Promise

section

variable {h : History β Ω} {e : Engine β Ω} {i : CommitId} {c : Commit β Ω} {m : Machine β Ω}
  {p : Promise E A}

theorem Run.agrees (r : Run h e) (hp : ∀ x ∈ h, p.Honored x) (hc : e.commits[i]? = some c)
    (hm : c.phase.attempt? = some m) : p.Agrees (h.diary i).kept m.journal := by
  refine (r.keeps (Q := p.Honored) .start .wide ?_ hp hc hm).kept
  intro e i c y hp hc hm hk hs hy l hl
  exact hl.visit hk hs (fun g => hp.code hc hm) hy

theorem Run.honored (r : Run h e)
    (hu : ∀ x ∈ h, ∀ t E A s, x.2 = .commit t E A s → t.Touches p.Allows)
    (hm : ∀ x ∈ h, p.cell ∉ x.1.store.cells → p.cell ∈ (x.1.act x.2).store.cells →
      (x.1.act x.2).store.value p.cell = p.holding none) : ∀ x ∈ h, p.Honored x := by
  induction r with
  | start ω => exact nofun
  | @next h e m r _ ih =>
    obtain ⟨-, hu'⟩ := List.forall_mem_cons.1 hu
    obtain ⟨hmade, hm'⟩ := List.forall_mem_cons.1 hm
    refine List.forall_mem_cons.2 ⟨⟨?_, hmade⟩, ih hu' hm'⟩
    intro i c x d g _ hc hx hf
    exact (r.touches hu' hc hx).focus _ hf

theorem Run.honored_play {ω : Ω} {ms : List (Move β Ω)} {q : History β Ω × Engine β Ω}
    (hq : q = Engine.play { world := ω } [] ms) (r : Run q.1 q.2)
    (hu : ∀ t E A s, .commit t E A s ∈ ms → t.Touches p.Allows) {l : History β Ω}
    {x : Engine β Ω × Move β Ω} (hl : q.1 = l ++ [x])
    (hin : l.all fun y => y.1.store.cells.contains p.cell)
    (hx : (x.1.act x.2).store.value p.cell = p.holding none) : ∀ y ∈ q.1, p.Honored y := by
  refine r.honored (fun y hy t E A s he => hu t E A s ?_) fun y hy hn _ => ?_
  · exact he ▸ Engine.mem_of_mem_play (hq ▸ hy)
  · rw [hl] at hy
    rcases List.mem_append.1 hy with hy | hy
    · exact absurd (Std.ExtTreeMap.contains_iff_mem.1 (List.all_eq_true.1 hin y hy)) hn
    · rw [List.mem_singleton.1 hy]
      exact hx

theorem Journal.Current.result? {l : List (Moment β Ω)} {j : Journal β} {s : Store β}
    {a : Option (Except E.El A.El)} (hj : j.Current s) (ha : p.Agrees l j)
    (hs : s.value p.cell = p.holding a) : ∃ b, j.landed s p.cell = p.holding b ∧ p.Stands l a b := by
  unfold Promise.Agrees at ha
  cases hx : j.entries[p.cell]? with
  | none =>
    simp only [hx] at ha
    refine ⟨a, ?_, .of_not_visited ha⟩
    rw [Journal.landed, hx]
    exact hs
  | some x =>
    simp only [hx] at ha
    have hv : x.expected.value = s.value p.cell := congrArg Version.value (hj p.cell x hx)
    obtain ⟨b, hb, hst⟩ := ha a (hv.trans hs)
    refine ⟨b, ?_, hst⟩
    rw [Journal.landed, hx, Option.bind_some, ← hv]
    exact hb

theorem Store.result?_of_notMem {s : Store β} (h : p.cell ∉ s.cells) : s.result? p = none := by
  have hv : (Any.unit : Any β).as (.option (.result E A)) = none := by
    rw [Any.as, dif_neg (by rintro ⟨⟩)]
  rw [Store.result?, Store.value, Store.version_of_notMem h]
  simp only [Version.blank, Promise.result?, hv]
  rfl

theorem Store.result?_eq {s : Store β} {a : Option (Except E.El A.El)}
    (h : s.value p.cell = p.holding a) : s.result? p = a := by
  rw [Store.result?, h, Promise.result?_holding]

theorem History.completions_of_not_finishes {m : Move β Ω}
    (hn : ∀ i, Engine.finishes i (e, m) = false) : completions p ((e, m) :: h) = h.completions p := by
  cases m with
  | advance i =>
    rw [completions, hn i]
    rfl
  | _ => rfl

theorem History.completions_of_finishes (hf : Engine.finishes i (e, .advance i)) :
    completions p ((e, .advance i) :: h) =
      (h.diary i).kept.filterMap (·.completes? p) ++ h.completions p := by
  rw [completions, if_pos hf]

theorem History.completions_cons (x : Engine β Ω × Move β Ω) :
    ∃ l, completions p (x :: h) = l ++ h.completions p := by
  obtain ⟨e, m⟩ := x
  cases m with
  | advance i => exact ⟨_, rfl⟩
  | _ => exact ⟨[], rfl⟩

theorem Promise.Agrees.completions_of_notMem {l : List (Moment β Ω)} {j : Journal β} {s : Store β}
    (ha : p.Agrees l j) (hk : j.Known s) (hs : p.cell ∉ s.cells) :
    l.filterMap (·.completes? p) = [] := by
  unfold Promise.Agrees at ha
  rw [hk.getElem?_eq_none hs] at ha
  exact List.filterMap_eq_nil_iff.2 fun y hy => Promise.completes?_of_ne (ha y hy)

theorem Promise.Honored.result?_of_notMem {x : Engine β Ω × Move β Ω} (h : p.Honored x)
    (hs : p.cell ∉ x.1.store.cells) : (x.1.act x.2).store.result? p = none := by
  by_cases ht : p.cell ∈ (x.1.act x.2).store.cells
  · exact Store.result?_eq (h.made hs ht)
  · exact Store.result?_of_notMem ht

/-- The cell of the promise always holds a result or none, and of the completions that have been
published there is one for a result and otherwise none. -/
theorem Run.completed (r : Run h e) (hp : ∀ x ∈ h, p.Honored x) :
    (p.cell ∈ e.store.cells → ∃ a, e.store.value p.cell = p.holding a) ∧
      h.completions p = (e.store.result? p).toList := by
  induction r with
  | start ω =>
    refine ⟨fun hc => by simp at hc, ?_⟩
    rw [Store.result?_of_notMem (by simp)]
    rfl
  | @next h e m r hm ih =>
    obtain ⟨hnow, hrest⟩ := List.forall_mem_cons.1 hp
    obtain ⟨hval, hcount⟩ := ih hrest
    by_cases hfin : ∃ i, Engine.finishes i (e, m)
    · obtain ⟨i, hf⟩ := hfin
      obtain ⟨c, hc⟩ := Engine.exists_of_finishes r.tracked hm hf
      obtain ⟨rfl, -⟩ := Engine.turn_of_finishes r.tracked hm hf hc
      obtain ⟨x, -, hx, -, -, hcur, -, hland⟩ := r.landed_of_finishes hm hf hc
      have hag := r.agrees hrest hc hx
      rw [History.completions_of_finishes hf, hcount]
      by_cases hcell : p.cell ∈ e.store.cells
      · obtain ⟨a, ha⟩ := hval hcell
        obtain ⟨b, hb, hst⟩ := hcur.result? hag ha
        have hv := (hland p.cell).trans hb
        refine ⟨fun _ => ⟨b, hv⟩, ?_⟩
        rw [Store.result?_eq ha, Store.result?_eq hv, hst.completions]
        cases a with
        | none => simp
        | some r => simp [hst.stable rfl]
      · have hk := r.tracked.known_attempt hc hx
        refine ⟨fun ht => ⟨none, hnow.made hcell ht⟩, ?_⟩
        rw [hag.completions_of_notMem hk hcell, Store.result?_of_notMem hcell,
          hnow.result?_of_notMem hcell]
        rfl
    · have hn (i : CommitId) : Engine.finishes i (e, m) = false :=
        Bool.eq_false_iff.2 fun hf => hfin ⟨i, hf⟩
      rw [History.completions_of_not_finishes hn, hcount]
      by_cases hcell : p.cell ∈ e.store.cells
      · have hv : (e.act m).store.value p.cell = e.store.value p.cell :=
          congrArg Version.value (r.version_of_not_finishes hm hn hcell)
        refine ⟨fun _ => ?_, ?_⟩
        · rw [hv]
          exact hval hcell
        · rw [Store.result?, Store.result?, hv]
      · refine ⟨fun ht => ⟨none, hnow.made hcell ht⟩, ?_⟩
        rw [Store.result?_of_notMem hcell, hnow.result?_of_notMem hcell]

end

end TransactionalMemory
