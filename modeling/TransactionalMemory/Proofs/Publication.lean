import TransactionalMemory.Proofs.Conflict
import TransactionalMemory.Proofs.Delivery
import TransactionalMemory.Proofs.Registration

namespace TransactionalMemory

variable {β : Type} [Universe β] {Ω : Type}

namespace Store

/-- No fiber waits for two commits. -/
def OneEach (s : Store β) : Prop :=
  ∀ (c d : CellId) (f : FiberId) (i k : CommitId),
    (s.waiting c)[f]? = some i → (s.waiting d)[f]? = some k → i = k

def drainEach (s : Store β) (w : Waiting) : List CellId → Waiting × Store β
  | [] => (w, s)
  | c :: cells => (s.drain c).2.drainEach (w ∪ (s.drain c).1) cells

variable {s : Store β} {c d : CellId} {w : Waiting} {f : FiberId} {i : CommitId} {cells : List CellId}

theorem getElem?_replace (v : Version β) :
    (s.replace c v).cells[d]? = if c = d then some ⟨v, s.waiting c⟩ else s.cells[d]? := by
  simp [replace, Std.ExtTreeMap.getElem?_insert]

theorem waiting_replace (v : Version β) : (s.replace c v).waiting d = s.waiting d := by
  unfold waiting
  rw [cell_replace]
  split
  · rename_i e
    subst e
    rfl
  · rfl

theorem getElem?_drain :
    (s.drain c).2.cells[d]? = if c = d then some ⟨s.version c, ∅⟩ else s.cells[d]? := by
  simp [drain, setWaiting, Std.ExtTreeMap.getElem?_insert]

theorem waiting_drain : (s.drain c).2.waiting d = if c = d then ∅ else s.waiting d :=
  waiting_setWaiting s c d ∅

theorem version_drain : (s.drain c).2.version d = s.version d := version_setWaiting s c d ∅

theorem ext_getElem? {t : Store β} (hc : ∀ c : CellId, s.cells[c]? = t.cells[c]?)
    (hn : s.nextCell = t.nextCell) (hw : s.now = t.now) : s = t := by
  obtain ⟨cells, next, now⟩ := s
  obtain ⟨cells', next', now'⟩ := t
  obtain rfl : cells = cells' := Std.ExtTreeMap.ext_getElem? fun {k} => hc k
  obtain rfl : next = next' := hn
  obtain rfl : now = now' := hw
  rfl

theorem OneEach.drain (h : s.OneEach) : (s.drain c).2.OneEach := by
  intro a b f i k ha hb
  rw [waiting_drain] at ha hb
  split at ha
  · simp at ha
  · split at hb
    · simp at hb
    · exact h a b f i k ha hb

theorem drainEach_frame (s : Store β) (w : Waiting) (cells : List CellId) :
    (s.drainEach w cells).2.now = s.now ∧ (s.drainEach w cells).2.nextCell = s.nextCell := by
  induction cells generalizing s w with
  | nil => exact ⟨rfl, rfl⟩
  | cons c cells ih => exact ih _ _

theorem getElem?_drainEach : (s.drainEach w cells).2.cells[d]? =
    if d ∈ cells then some ⟨s.version d, ∅⟩ else s.cells[d]? := by
  induction cells generalizing s w with
  | nil => simp [drainEach]
  | cons c cells ih =>
    rw [drainEach, ih, version_drain, getElem?_drain]
    by_cases hd : d ∈ cells
    · simp [hd]
    · by_cases hc : c = d
      · simp [hc]
      · simp [hd, hc, Ne.symm hc]

theorem getElem?_drainEach_fst (h : s.OneEach) (hw : ∀ (f : FiberId) (i k : CommitId),
    w[f]? = some i → ∀ c, (s.waiting c)[f]? = some k → i = k) :
    (s.drainEach w cells).1[f]? = some i ↔
      w[f]? = some i ∨ ∃ c ∈ cells, (s.waiting c)[f]? = some i := by
  induction cells generalizing s w with
  | nil => simp [drainEach]
  | cons c cells ih =>
    have hunion (f : FiberId) (i : CommitId) : (w ∪ (s.drain c).1)[f]? = some i ↔
        w[f]? = some i ∨ (s.waiting c)[f]? = some i := by
      rw [Std.ExtTreeMap.getElem?_union, show (s.drain c).1 = s.waiting c from rfl]
      cases hk : (s.waiting c)[f]? with
      | none => simp
      | some k =>
        rw [Option.some_or, or_iff_right_of_imp]
        exact fun hi => congrArg some (hw f i k hi c hk).symm
    rw [drainEach, ih h.drain, hunion]
    · constructor
      · rintro ((hi | hi) | ⟨d, hd, hi⟩)
        · exact .inl hi
        · exact .inr ⟨c, List.mem_cons_self, hi⟩
        · rw [waiting_drain] at hi
          split at hi
          · simp at hi
          · exact .inr ⟨d, List.mem_cons_of_mem c hd, hi⟩
      · rintro (hi | ⟨d, hd, hi⟩)
        · exact .inl (.inl hi)
        · by_cases hcd : c = d
          · exact .inl (.inr (hcd ▸ hi))
          · refine .inr ⟨d, List.mem_of_ne_of_mem (Ne.symm hcd) hd, ?_⟩
            rwa [waiting_drain, if_neg hcd]
    · intro f i k hi d hk
      rw [waiting_drain] at hk
      split at hk
      · simp at hk
      · rcases (hunion f i).1 hi with hi | hi
        · exact hw f i k hi d hk
        · exact h c d f i k hi hk

end Store

namespace Journal

def visit (p : Store β × Journal β) (q : CellId × Entry β) : Store β × Journal β :=
  match q.2.pending with
  | some v => (p.1.replace q.1 ⟨q.1, p.1.now, v⟩, p.2.put q.1 { q.2 with pending := none })
  | none => p

def publishAlong (j : Journal β) (s : Store β) (l : List (CellId × Entry β)) :
    Except Refusal Waiting × Store β × Journal β :=
  if l.all fun q => q.2.isValid q.1 s then
    let p := l.foldl visit (s, j)
    let d := p.1.drainEach ∅ ((l.filter fun q => q.2.isChanged).map Prod.fst)
    (.ok d.1, { d.2 with now := s.now + 1 }, p.2)
  else (.error .invalidJournal, s, j)

variable {j : Journal β} {s : Store β} {c : CellId} {x : Entry β} {v : Any β}
  {p : Store β × Journal β} {l : List (CellId × Entry β)}

theorem visit_of_pending (h : x.pending = some v) : visit p (c, x) =
    (p.1.replace c ⟨c, p.1.now, v⟩, p.2.put c { x with pending := none }) := by
  simp [visit, h]

theorem visit_of_none (h : x.pending = none) : visit p (c, x) = p := by
  simp [visit, h]

theorem visit_frame (p : Store β × Journal β) (q : CellId × Entry β) :
    (visit p q).1.now = p.1.now ∧ (visit p q).1.nextCell = p.1.nextCell ∧
      ∀ c, (visit p q).1.waiting c = p.1.waiting c := by
  obtain ⟨c, x⟩ := q
  cases h : x.pending with
  | none => simp [visit_of_none h]
  | some v =>
    rw [visit_of_pending h]
    exact ⟨rfl, rfl, fun _ => Store.waiting_replace _⟩

theorem visits_frame (p : Store β × Journal β) (l : List (CellId × Entry β)) :
    (l.foldl visit p).1.now = p.1.now ∧ (l.foldl visit p).1.nextCell = p.1.nextCell ∧
      ∀ c, (l.foldl visit p).1.waiting c = p.1.waiting c := by
  induction l generalizing p with
  | nil => exact ⟨rfl, rfl, fun _ => rfl⟩
  | cons q l ih =>
    obtain ⟨hn, hc, hw⟩ := visit_frame p q
    obtain ⟨hn', hc', hw'⟩ := ih (visit p q)
    exact ⟨hn'.trans hn, hc'.trans hc, fun c => (hw' c).trans (hw c)⟩

theorem visit_of_ne {q : CellId × Entry β} (h : q.1 = c → q.2.pending = none) :
    (visit p q).1.cells[c]? = p.1.cells[c]? ∧ (visit p q).2.entries[c]? = p.2.entries[c]? := by
  obtain ⟨d, x⟩ := q
  cases hx : x.pending with
  | none => simp [visit_of_none hx]
  | some v =>
    have hd : d ≠ c := by
      intro e
      rw [show x.pending = none from h e] at hx
      cases hx
    rw [visit_of_pending hx, Store.getElem?_replace, getElem?_put, if_neg hd, if_neg hd]
    exact ⟨rfl, rfl⟩

theorem visits_of_not (h : ∀ x, (c, x) ∈ l → x.pending = none) :
    (l.foldl visit p).1.cells[c]? = p.1.cells[c]? ∧
      (l.foldl visit p).2.entries[c]? = p.2.entries[c]? := by
  induction l generalizing p with
  | nil => exact ⟨rfl, rfl⟩
  | cons q l ih =>
    obtain ⟨hs, hj⟩ := ih (p := visit p q) fun x hx => h x (List.mem_cons_of_mem q hx)
    obtain ⟨hs', hj'⟩ := visit_of_ne (p := p) (q := q) (c := c) fun e => by
      subst e
      exact h q.2 List.mem_cons_self
    exact ⟨hs.trans hs', hj.trans hj'⟩

theorem visits_of_mem (hl : l.Pairwise fun q r => q.1 ≠ r.1) (hx : (c, x) ∈ l)
    (hv : x.pending = some v) :
    (l.foldl visit p).1.cells[c]? = some ⟨⟨c, p.1.now, v⟩, p.1.waiting c⟩ ∧
      (l.foldl visit p).2.entries[c]? = some { x with pending := none } := by
  -- Each cell is visited once, so what its entry holds is what it gets.
  induction l generalizing p with
  | nil => simp at hx
  | cons q l ih =>
    obtain ⟨hq, hl⟩ := List.pairwise_cons.1 hl
    rcases List.mem_cons.1 hx with rfl | hx
    · obtain ⟨hs, hj⟩ := visits_of_not (p := visit p (c, x)) (c := c) (l := l)
        fun y hy => absurd rfl (hq (c, y) hy)
      rw [visit_of_pending hv, Store.getElem?_replace, if_pos rfl] at hs
      rw [visit_of_pending hv, getElem?_put, if_pos rfl] at hj
      rw [List.foldl_cons, visit_of_pending hv]
      exact ⟨hs, hj⟩
    · obtain ⟨hn, -, hw⟩ := visit_frame p q
      rw [← hn, ← hw c]
      exact ih hl hx

section Order

variable (hl : l.Perm j.entries.toList)
include hl

theorem mem_of_order : (c, x) ∈ l ↔ j.entries[c]? = some x :=
  hl.mem_iff.trans Std.ExtTreeMap.mem_toList_iff_getElem?_eq_some

theorem pairwise_of_order : l.Pairwise fun q r => q.1 ≠ r.1 := by
  refine (hl.pairwise_iff fun h => Ne.symm h).2 ?_
  have := Std.ExtTreeMap.distinct_keys_toList (t := j.entries)
  exact this.imp fun h e => h (by rw [e]; exact Std.ReflCmp.compare_self)

theorem isValid_of_order : (l.all fun q => q.2.isValid q.1 s) = j.isValid s :=
  hl.all_eq

theorem mem_written_of_order : c ∈ (l.filter fun q => q.2.isChanged).map Prod.fst ↔
    ∃ x, j.entries[c]? = some x ∧ x.isChanged := by
  simp only [List.mem_map, List.mem_filter, Prod.exists, exists_and_right, exists_eq_right]
  exact exists_congr fun x => and_congr_left fun _ => mem_of_order hl

end Order

theorem mem_written : c ∈ j.written s ↔ ∃ x, j.entries[c]? = some x ∧ x.isChanged := by
  rw [Std.ExtTreeMap.mem_iff_isSome_getElem?, getElem?_written]
  cases j.entries[c]? <;> simp [Entry.isChanged]

theorem getElem?_waitingFor_iff (hs : s.OneEach) {cells : Std.ExtTreeMap CellId (Cell β)}
    {f : FiberId} {i : CommitId} : (waitingFor s cells)[f]? = some i ↔
      ∃ c ∈ cells, (s.waiting c)[f]? = some i := by
  refine ⟨getElem?_waitingFor, ?_⟩
  rintro ⟨c, hc, hi⟩
  have hf : f ∈ waitingFor s cells :=
    (mem_waitingFor s cells f).2 ⟨c, hc, Std.ExtTreeMap.mem_iff_isSome_getElem?.2 (by rw [hi]; rfl)⟩
  have hk := Std.ExtTreeMap.getElem?_eq_some_getElem hf
  obtain ⟨d, -, hd⟩ := getElem?_waitingFor hk
  rw [hk, hs d c f _ i hd hi]

section Order

variable (hl : l.Perm j.entries.toList)
include hl

theorem visits_cases (c : CellId) :
    (∃ x v, j.entries[c]? = some x ∧ x.pending = some v ∧
      (l.foldl visit (s, j)).1.cells[c]? = some ⟨⟨c, s.now, v⟩, s.waiting c⟩ ∧
      (l.foldl visit (s, j)).2.entries[c]? = some { x with pending := none }) ∨
    (∀ x, j.entries[c]? = some x → x.pending = none) ∧
      (l.foldl visit (s, j)).1.cells[c]? = s.cells[c]? ∧
      (l.foldl visit (s, j)).2.entries[c]? = j.entries[c]? := by
  by_cases h : ∃ x v, j.entries[c]? = some x ∧ x.pending = some v
  · obtain ⟨x, v, hx, hv⟩ := h
    exact .inl ⟨x, v, hx, hv, visits_of_mem (pairwise_of_order hl) ((mem_of_order hl).2 hx) hv⟩
  · have hnone : ∀ x, j.entries[c]? = some x → x.pending = none := by
      intro x hx
      cases hv : x.pending with
      | none => rfl
      | some v => exact absurd ⟨x, v, hx, hv⟩ h
    exact .inr ⟨hnone, visits_of_not fun x hx => hnone x ((mem_of_order hl).1 hx)⟩

theorem settled_of_order : (l.foldl visit (s, j)).2 = j.settled := by
  suffices h : (l.foldl visit (s, j)).2.entries = j.settled.entries by
    cases hk : (l.foldl visit (s, j)).2
    rw [hk] at h
    cases h
    rfl
  apply Std.ExtTreeMap.ext_getElem?
  intro c
  rw [getElem?_settled]
  rcases visits_cases (s := s) hl c with ⟨x, v, hx, -, -, hj⟩ | ⟨hn, -, hj⟩
  · rw [hj, hx, Option.map_some]
  · rw [hj]
    cases hx : j.entries[c]? with
    | none => rfl
    | some x =>
      obtain ⟨expected, pending, created⟩ := x
      obtain rfl : pending = none := hn _ hx
      rfl

/-- In whatever order the entries are visited, the cells, the lists, the callbacks and the journal end
up as they do when all is published at once. -/
theorem publishAlong_eq (hs : s.OneEach) : j.publishAlong s l =
    match j.publish s with
    | .ok (w, t, k) => (.ok w, t, k)
    | .error r => (.error r, s, j) := by
  unfold publishAlong publish
  rw [isValid_of_order hl]
  split
  · have hcells := visits_cases (s := s) hl
    have hsettled := settled_of_order (s := s) hl
    have hmem (c : CellId) := mem_written_of_order (c := c) hl
    obtain ⟨hn, hc, hw⟩ := visits_frame (s, j) l
    generalize l.foldl visit (s, j) = p at hcells hsettled hn hc hw
    generalize (l.filter fun q => q.2.isChanged).map Prod.fst = cells at hmem
    obtain ⟨t, k⟩ := p
    obtain ⟨hn', hc'⟩ := t.drainEach_frame ∅ cells
    have ht : t.OneEach := by
      intro c d f i k
      rw [hw, hw]
      exact hs c d f i k
    simp only [Prod.mk.injEq, Except.ok.injEq]
    refine ⟨?callbacks, ?cells, hsettled⟩
    case callbacks =>
      refine Std.ExtTreeMap.ext_getElem? fun {f} => Option.ext fun i => ?_
      rw [Store.getElem?_drainEach_fst ht (by simp), getElem?_waitingFor_iff hs]
      simp [hmem, mem_written, hw]
    case cells =>
      refine Store.ext_getElem? (fun c => ?_) (hc'.trans hc) rfl
      show (t.drainEach ∅ cells).2.cells[c]? = (s.cells ∪ j.written s)[c]?
      rw [Store.getElem?_drainEach, Std.ExtTreeMap.getElem?_union, getElem?_written]
      rcases hcells c with ⟨x, v, hx, hv, hcell, -⟩ | ⟨hnone, hcell, -⟩
      · rw [if_pos ((hmem c).2 ⟨x, hx, by simp [Entry.isChanged, hv]⟩)]
        simp [hx, hv, Store.version, Store.cell, hcell]
      · rw [if_neg, hcell]
        · cases hx : j.entries[c]? with
          | none => rfl
          | some x => simp [hnone x hx]
        · rw [hmem]
          rintro ⟨x, hx, hch⟩
          simp [Entry.isChanged, hnone x hx] at hch
  · rfl

end Order

theorem isValid_of_new {t : Store β} {y : Entry β} (hs : s.Sound) (hy : y.Known c s)
    (ht : t.version c = ⟨c, s.now, v⟩) : y.isValid c t = false := by
  have hpast := hs.past c
  rw [Bool.eq_false_iff, Ne, Entry.isValid, ht, Version.same_iff]
  rintro ⟨-, htime : s.now = y.expected.time⟩
  rcases hy.time with e | hlt
  · rw [e] at htime
    omega
  · omega

/-- A stale entry is enough for nothing to happen at all. Otherwise each cell that is written to gets a
version that is later than all there are, with the value that waited for it, and nobody is left on its
list. Every other cell stays as it is, and so does who waits for it. Whoever waited for at least one of
the written cells is called, each fiber once. The order of the visits does not show. -/
theorem published_in_any_order (hs : s.Sound) (hw : s.OneEach) (hl : l.Perm j.entries.toList) :
    ((∃ (c : CellId) (x : Entry β), j.entries[c]? = some x ∧ x.isValid c s = false) →
      j.publish s = .error .invalidJournal ∧
      j.publishAlong s l = (.error .invalidJournal, s, j)) ∧
    ((∀ (c : CellId) (x : Entry β), j.entries[c]? = some x → x.isValid c s) → ∃ w t,
      j.publish s = .ok (w, t, j.settled) ∧ j.publishAlong s l = (.ok w, t, j.settled) ∧
      (∀ c x v, j.entries[c]? = some x → x.pending = some v → t.value c = v ∧
        (∀ d, (s.version d).time < (t.version c).time) ∧
        (∀ y : Entry β, y.Known c s → y.isValid c t = false) ∧ t.waiting c = ∅) ∧
      (∀ c, (∀ x, j.entries[c]? = some x → x.pending = none) → t.cell c = s.cell c) ∧
      ∀ (f : FiberId) (i : CommitId), w[f]? = some i ↔
        ∃ c x, j.entries[c]? = some x ∧ x.isChanged ∧ (s.waiting c)[f]? = some i) := by
  constructor
  case left =>
    intro hstale
    have hp : j.publish s = .error .invalidJournal :=
      (publish_eq_error_iff j s).2 ⟨isValid_eq_false_iff.2 hstale, rfl⟩
    exact ⟨hp, by rw [publishAlong_eq hl hw, hp]⟩
  case right =>
    intro hvalid
    have hp : j.publish s = .ok (_, _, _) := if_pos ((isValid_iff j s).2 hvalid)
    refine ⟨_, _, hp, by rw [publishAlong_eq hl hw, hp], fun c x v hx hv => ?_,
      fun c hc => cell_publish_of_not hp hc, fun f i => ?_⟩
    · have hcell := cell_publish_of_pending hp hx hv
      generalize ({ s.overlay (j.written s) with now := s.now + 1 } : Store β) = t at hcell
      have hver : t.version c = ⟨c, s.now, v⟩ := by rw [Store.version, hcell]
      refine ⟨by rw [Store.value, hver], fun d => ?_, fun y hy => isValid_of_new hs hy hver,
        by rw [Store.waiting, hcell]⟩
      rw [hver]
      exact hs.past d
    · rw [getElem?_waitingFor_iff hw]
      simp only [mem_written, ← exists_and_right, and_assoc]

end Journal

theorem Run.oneEach {h : History β Ω} {e : Engine β Ω} (r : Run h e) (ho : h.Orderly e) :
    e.store.OneEach := by
  have live {c : CellId} {f : FiberId} {i : CommitId} (hi : (e.store.waiting c)[f]? = some i) :
      ∃ b, e.commits[i]? = some b ∧ b.isLive ∧ b.fiber = f := by
    obtain ⟨j, x, hw, -⟩ := (r.exact ho).watches hi
    obtain ⟨b, hb, hw⟩ := Option.bind_eq_some_iff.1 hw
    obtain ⟨k, hk, heq⟩ := Option.map_eq_some_iff.1 hw
    exact ⟨b, hb, (r.tidy hb).live (by rw [hk]; rfl), congrArg Prod.fst heq⟩
  intro c d f i k hi hk
  obtain ⟨a, ha, hla, hfa⟩ := live hi
  obtain ⟨b, hb, hlb, hfb⟩ := live hk
  exact ho.distinct.eq hb ha hlb hla (hfa.trans hfb.symm)

/-- One commit waits for three cells and another for the second of them. A third has written to the
first two, read the last, and is about to publish. -/
def twoOfThree : List (Move Scenario.Base Unit) :=
  let look i (t : Tree Scenario.Base Unit) : Tree Scenario.Base Unit :=
    .onSuccess (.touch ⟨i⟩ fun _ _ => .ok (.leave (.success .unit))) fun _ _ => t
  let write i (n : Nat) (t : Tree Scenario.Base Unit) : Tree Scenario.Base Unit :=
    .onSuccess (.touch ⟨i⟩ fun _ _ => .ok (.write ⟨.nat, n⟩ .unit)) fun _ _ => t
  let retry i : Tree Scenario.Base Unit := .touch ⟨i⟩ fun _ _ => .ok (.leave .retry)
  let done : Tree Scenario.Base Unit := .done (.success .unit)
  let turns n i := List.replicate n (Move.advance ⟨i⟩)
  [.alloc ⟨.nat, (0 : Nat)⟩, .alloc ⟨.nat, (0 : Nat)⟩, .alloc ⟨.nat, (0 : Nat)⟩,
    .commit (look 1 (look 2 (retry 3))) .never .unit none, .commit (retry 2) .never .unit none,
    .commit (write 1 5 (write 2 6 (look 3 done))) .never .unit none,
    .commit (write 3 7 done) .never .unit none,
    .poll ⟨1⟩ (.task ⟨1⟩)] ++ turns 12 1 ++ [.settle ⟨1⟩, .poll ⟨2⟩ (.task ⟨2⟩)] ++ turns 6 2 ++
  [.settle ⟨2⟩, .runSync ⟨3⟩] ++ turns 12 3

theorem published_twoOfThree :
    let p := Engine.play { world := () } [] twoOfThree
    let q := p.2.play p.1 (.runSync ⟨4⟩ :: List.replicate 7 (.advance ⟨4⟩))
    let j := ((p.2.commits[(⟨3⟩ : CommitId)]?).bind (·.phase.journal?)).getD {}
    let l := j.entries.toList.reverse
    (∃ w t, j.publishAlong p.2.store l = (.ok w, t, j.settled) ∧
      w[(⟨1⟩ : FiberId)]? = some ⟨1⟩ ∧ w[(⟨2⟩ : FiberId)]? = some ⟨2⟩ ∧ t.waiting ⟨2⟩ = ∅ ∧
      (⟨1⟩ : FiberId) ∈ t.waiting ⟨3⟩) ∧
    j.publishAlong q.2.store l = (.error .invalidJournal, q.2.store, j) := by
  -- Both that wait are called once, although one of them waits for two written cells, and it still waits for
  -- the third. Had a fourth commit written to that one first, all would be refused.
  intro p q j l
  have r : Run p.1 p.2 := (Run.start ()).play (by decide +kernel)
  have r' : Run q.1 q.2 := r.play (by decide +kernel)
  have ho : p.1.Orderly p.2 := by decide +kernel
  have ho' : q.1.Orderly q.2 := by decide +kernel
  have hl : l.Perm j.entries.toList := List.reverse_perm _
  obtain ⟨-, hok⟩ := Journal.published_in_any_order r.tracked.sound (r.oneEach ho) hl
  obtain ⟨hrefused, -⟩ := Journal.published_in_any_order r'.tracked.sound (r'.oneEach ho') hl
  obtain ⟨w, t, -, hpub, hwritten, hkept, hcalled⟩ :=
    hok ((Journal.isValid_iff j _).1 (by decide +kernel))
  have entry (c : CellId) (h : c ∈ j.entries) : ∃ x, j.entries[c]? = some x :=
    Option.isSome_iff_exists.1 (Std.ExtTreeMap.mem_iff_isSome_getElem?.1 h)
  obtain ⟨x, hx⟩ := entry ⟨2⟩ (by decide +kernel)
  obtain ⟨y, hy⟩ := entry ⟨3⟩ (by decide +kernel)
  have hxy : (j.entries[(⟨2⟩ : CellId)]?).all (·.isChanged) ∧
      (j.entries[(⟨3⟩ : CellId)]?).all fun y => !y.isChanged && !y.isValid ⟨3⟩ q.2.store := by
    decide +kernel
  simp only [hx, hy, Option.all_some, Bool.and_eq_true, Bool.not_eq_true'] at hxy
  obtain ⟨hch, hsame, hstale⟩ := hxy
  obtain ⟨v, hv⟩ := Option.isSome_iff_exists.1 hch
  obtain ⟨-, -, -, hempty⟩ := hwritten ⟨2⟩ x v hx hv
  refine ⟨⟨w, t, hpub, (hcalled ⟨1⟩ ⟨1⟩).2 ⟨⟨2⟩, x, hx, hch, by decide +kernel⟩,
    (hcalled ⟨2⟩ ⟨2⟩).2 ⟨⟨2⟩, x, hx, hch, by decide +kernel⟩, hempty, ?_⟩,
    (hrefused ⟨⟨3⟩, y, hy, hstale⟩).2⟩
  rw [Store.waiting, hkept ⟨3⟩ (fun z hz => ?_)]
  · decide +kernel
  · cases hy.symm.trans hz
    simpa [Entry.isChanged] using hsame

end TransactionalMemory
