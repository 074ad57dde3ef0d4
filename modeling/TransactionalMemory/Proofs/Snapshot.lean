import TransactionalMemory.Proofs.Conflict
import TransactionalMemory.Proofs.Diary
import TransactionalMemory.Proofs.Equality
import TransactionalMemory.Tx.Recover

namespace TransactionalMemory

variable {β : Type} [Universe β] {Ω : Type}

namespace Entry

/-- The entry as it was made, before anything was written. -/
def bare (x : Entry β) : Entry β := { x with pending := none }

theorem current_of_set {x y : Entry β} {v : Any β} (h : x.set v = .ok y) :
    y.current = v ∨ y.current.same v := by
  unfold set at h
  split at h
  · split at h
    · rename_i hs
      cases h
      exact .inr hs
    · split at h
      · rename_i hs
        cases h
        exact .inr hs
      · cases h
        exact .inl rfl
  · cases h

theorem set_isOk {x : Entry β} {v : Any β} (h : x.current.ty = v.ty) : ∃ y, x.set v = .ok y := by
  unfold set
  rw [if_pos h]
  split
  · exact ⟨_, rfl⟩
  · split <;> exact ⟨_, rfl⟩

theorem set_of_ne {x : Entry β} {v : Any β} (h : x.current.ty ≠ v.ty) :
    x.set v = .error (.typeMismatch v.ty.name) := by
  unfold set
  rw [if_neg h]

theorem set_of_same {x : Entry β} {v : Any β} (h : x.current.same v) : x.set v = .ok x := by
  rw [set, if_pos (Any.ty_of_same h).symm, if_pos h]

end Entry

namespace Moment

def found (y : Moment β Ω) (c : CellId) : Any β :=
  (y.machine.journal.entry y.scene.store c).current

def write? (y : Moment β Ω) (c : CellId) : Option (Any β) :=
  match y.machine.focus with
  | .run (.touch d g) =>
    if d = c then
      match g (y.found c) y.scene.world with
      | .ok (.write v _) => if (y.found c).ty = v.ty then some v else none
      | _ => none
    else none
  | _ => none

def entry? (y : Moment β Ω) (c : CellId) : Option (Entry β) :=
  match y.machine.focus with
  | .run (.touch d _) => if d = c then some { expected := y.scene.store.version c } else none
  | .run (.make v _) =>
    if y.scene.store.nextCell = c then
      some { expected := (y.scene.store.alloc v).2.version c, created := true }
    else none
  | _ => none

variable {y : Moment β Ω} {f : FiberId} {c : CellId} {g : Any β → Code Ω (Access β)}

theorem write?_of_ne {d : CellId} (hf : y.machine.focus = .run (.touch c g)) (hd : c ≠ d) :
    y.write? d = none := by
  simp [write?, hf, hd]

theorem touch_cases (hf : y.machine.focus = .run (.touch c g)) :
    (∃ v x, y.write? c = some v ∧ (y.machine.journal.entry y.scene.store c).set v = .ok x ∧
      (y.next f).journal = y.machine.journal.put c x) ∨
    y.write? c = none ∧ (y.next f).journal =
      y.machine.journal.put c (y.machine.journal.entry y.scene.store c) := by
  have hj : (y.next f).journal =
      (y.machine.journal.touch y.scene.store c fun v => g v y.scene.world).2 := by
    simp only [next, Machine.step, hf]
    rfl
  simp only [write?, hf, if_true]
  rw [hj]
  unfold Journal.touch found
  cases hg : g (y.machine.journal.entry y.scene.store c).current y.scene.world with
  | error p => exact .inr ⟨rfl, by simp only [hg]⟩
  | ok a =>
    cases a with
    | leave o => exact .inr ⟨rfl, by simp only [hg]⟩
    | write v r =>
      by_cases ht : (y.machine.journal.entry y.scene.store c).current.ty = v.ty
      · obtain ⟨x, hx⟩ := Entry.set_isOk ht
        exact .inl ⟨v, x, if_pos ht, hx, by simp only [hg, hx]⟩
      · have hx := Entry.set_of_ne ht
        exact .inr ⟨if_neg ht, by simp only [hg, hx]⟩

theorem visit_cases (hy : y.cell?.isSome) :
    (∃ c g, y.machine.focus = .run (.touch c g)) ∨
      ∃ v answer, y.machine.focus = .run (.make v answer) := by
  unfold cell? at hy
  split at hy
  · exact .inl ⟨_, _, ‹_›⟩
  · exact .inr ⟨_, _, ‹_›⟩
  · cases hy

theorem journal_of_make {v : Any β} {answer : CellId → Any β}
    (hf : y.machine.focus = .run (.make v answer)) : (y.next f).journal =
      y.machine.journal.insertNew (y.scene.store.alloc v).2 y.scene.store.nextCell := by
  simp only [next, Machine.step, hf]
  rfl

end Moment

namespace Diary

def written (d : Diary β Ω) (c : CellId) : Option (Any β) := d.kept.findSome? (·.write? c)

/-- The entry that the first visit of the cell has made. -/
def firstSeen (c : CellId) : List (Moment β Ω) → Option (Entry β)
  | [] => none
  | y :: l => (firstSeen c l).or (y.entry? c)

end Diary

/-- A journal holds for each cell the latest of the writes, or one equal to it, and nothing where there
is none. -/
def Journal.Reflects (l : List (Moment β Ω)) (j : Journal β) : Prop :=
  ∀ c, match l.findSome? (·.write? c) with
    | some v => ∃ x, j.entries[c]? = some x ∧ (x.current = v ∨ x.current.same v)
    | none => ∀ x, j.entries[c]? = some x → x.pending = none

namespace Journal.Reflects

variable {l : List (Moment β Ω)} {j k : Journal β} {y : Moment β Ω} {f : FiberId}

theorem start : Reflects ([] : List (Moment β Ω)) {} := by
  intro c x hx
  simp at hx

theorem wide (h : Reflects l j) (hw : j.Widens k) : Reflects l k := by
  intro c
  have hc := h c
  cases hl : l.findSome? (·.write? c) with
  | some v =>
    simp only [hl] at hc ⊢
    obtain ⟨x, hx, hv⟩ := hc
    rcases hw c with he | ⟨hn, -⟩
    · exact ⟨x, he.trans hx, hv⟩
    · cases hn.symm.trans hx
  | none =>
    simp only [hl] at hc ⊢
    intro x hx
    rcases hw c with he | ⟨-, x', hx', hp⟩
    · exact hc x (he.symm.trans hx)
    · cases hx'.symm.trans hx
      exact hp

variable {c : CellId} {x : Entry β}

theorem put_written {v : Any β} (h : Reflects l j) (hv : y.write? c = some v)
    (hw : ∀ d, c ≠ d → y.write? d = none) (hx : x.current = v ∨ x.current.same v) :
    Reflects (y :: l) (j.put c x) := by
  intro d
  rw [List.findSome?_cons, getElem?_put]
  by_cases hd : c = d
  · subst hd
    rw [hv, if_pos rfl]
    exact ⟨x, rfl, hx⟩
  · rw [hw d hd, if_neg hd]
    exact h d

theorem put_unwritten (h : Reflects l j) (hw : ∀ d, y.write? d = none)
    (hx : j.entries[c]? = some x ∨ j.entries[c]? = none ∧ x.pending = none) :
    Reflects (y :: l) (j.put c x) := by
  intro d
  have hl := h d
  rw [List.findSome?_cons, hw d, getElem?_put]
  by_cases hd : c = d
  · subst hd
    cases hv : l.findSome? (·.write? c) with
    | some v =>
      simp only [hv, if_true] at hl ⊢
      obtain ⟨z, hz, hzv⟩ := hl
      rcases hx with hx | ⟨hn, -⟩
      · cases hz.symm.trans hx
        exact ⟨x, rfl, hzv⟩
      · cases hn.symm.trans hz
    | none =>
      simp only [hv, if_true] at hl ⊢
      rintro z ⟨⟩
      exact hx.elim (hl x) And.right
  · rw [if_neg hd]
    exact hl

theorem visit (h : Reflects l y.machine.journal) (hk : y.machine.journal.Known y.scene.store)
    (hs : y.scene.store.Sound) (hy : y.cell?.isSome) : Reflects (y :: l) (y.next f).journal := by
  rcases Moment.visit_cases hy with ⟨c, g, hf⟩ | ⟨v, answer, hf⟩
  · have hne (d : CellId) (hd : c ≠ d) := Moment.write?_of_ne hf hd
    rcases Moment.touch_cases (f := f) hf with ⟨v, x, hv, hx, hj⟩ | ⟨hn, hj⟩
    · rw [hj]
      exact h.put_written hv hne (Entry.current_of_set hx)
    · rw [hj]
      refine h.put_unwritten (fun d => ?_) ?_
      · by_cases hd : c = d
        · exact hd ▸ hn
        · exact hne d hd
      · cases hx : y.machine.journal.entries[c]? with
        | some x => exact .inl (by rw [entry_eq_of_getElem? hx])
        | none =>
          refine .inr ⟨rfl, ?_⟩
          simp only [entry, hx]
          rfl
  · rw [Moment.journal_of_make hf]
    exact h.put_unwritten (fun d => by simp [Moment.write?, hf])
      (.inr ⟨hk.getElem?_eq_none hs.nextCell_notMem, rfl⟩)

end Journal.Reflects

def Journal.Records (l : List (Moment β Ω)) (j : Journal β) : Prop :=
  ∀ c : CellId, (j.entries[c]?).map Entry.bare = Diary.firstSeen c l

namespace Journal.Records

variable {l : List (Moment β Ω)} {j k : Journal β} {y : Moment β Ω} {f : FiberId}

theorem rollback (h : Records l j) (k : Checkpoint β) : Records l (j.rollback k) := by
  intro c
  rw [getElem?_rollback, Option.map_map, ← h c]
  rfl

theorem visit (h : Records l y.machine.journal) (hk : y.machine.journal.Known y.scene.store)
    (hs : y.scene.store.Sound) (hy : y.cell?.isSome) : Records (y :: l) (y.next f).journal := by
  intro d
  rw [Diary.firstSeen, ← h d]
  rcases Moment.visit_cases hy with ⟨c, g, hf⟩ | ⟨v, answer, hf⟩
  · have hj : ∃ x, x.bare = (y.machine.journal.entry y.scene.store c).bare ∧
        (y.next f).journal = y.machine.journal.put c x := by
      rcases Moment.touch_cases (f := f) hf with ⟨v, x, -, hx, hj⟩ | ⟨-, hj⟩
      · obtain ⟨p, rfl⟩ := Entry.eq_of_set hx
        refine ⟨_, ?_, hj⟩
        rfl
      · exact ⟨_, rfl, hj⟩
    obtain ⟨x, hx, hj⟩ := hj
    rw [hj, getElem?_put]
    by_cases hcd : c = d
    · subst hcd
      rw [if_pos rfl, Option.map_some, hx]
      cases hz : y.machine.journal.entries[c]? with
      | some z => simp [entry_eq_of_getElem? hz]
      | none => simp [entry, hz, Moment.entry?, hf, Entry.bare]
    · rw [if_neg hcd]
      simp [Moment.entry?, hf, hcd]
  · rw [Moment.journal_of_make hf, insertNew, getElem?_put]
    by_cases hcd : y.scene.store.nextCell = d
    · subst hcd
      have hz := hk.getElem?_eq_none hs.nextCell_notMem
      simp [hz, Moment.entry?, hf, Entry.bare]
    · simp [Moment.entry?, hf, hcd]

theorem step {d : Diary β Ω} (h : Records d.visits y.machine.journal)
    (hk : y.machine.journal.Known y.scene.store) (hs : y.scene.store.Sound) :
    Records (d.note f y).visits (y.next f).journal := by
  have hn := Diary.noted (d := d) (f := f) (y := y)
  generalize d.note f y = d' at hn
  cases hn with
  | visit hy => exact h.visit hk hs hy
  | stay _ _ hj | push _ _ _ hj | pop _ _ _ hj =>
    rw [hj]
    exact h
  | rollback k r _ _ _ hj =>
    rw [hj]
    exact h.rollback k

end Journal.Records

section

variable {h : History β Ω} {e : Engine β Ω} {i : CommitId} {c : Commit β Ω} {m : Machine β Ω}

theorem Run.reflects (r : Run h e) (hc : e.commits[i]? = some c) (hm : c.phase.attempt? = some m) :
    Journal.Reflects (h.diary i).kept m.journal := by
  refine (r.keeps (Q := fun _ => True) .start .wide ?_ (fun _ _ => trivial) hc hm).kept
  intro e i c y _ _ _ hk hs hy l hl
  exact hl.visit hk hs hy

theorem Run.records (r : Run h e) (hc : e.commits[i]? = some c) (hm : c.phase.attempt? = some m) :
    Journal.Records (h.diary i).visits m.journal := by
  refine r.each_attempt (P := fun h _ i _ _ m => Journal.Records (h.diary i).visits m.journal)
    ?_ ?_ ?_ hc hm
  · intro h e i c call _ hc hp d
    rw [History.diary_launch hc hp]
    simp [Machine.start, Diary.firstSeen]
  · intro h e i c call m r hc hp ho ih
    rw [History.diary_step hc hp ho]
    exact Journal.Records.step (y := ⟨m, ⟨e.store, e.world⟩⟩) ih
      (r.tracked.known_attempt hc (by rw [hp]; rfl)) r.tracked.sound
  · intro h e i c m x _ _ hne _ _ ih
    rwa [History.diary_of_ne hne]

theorem Run.extends_since (r : Run h e) (hc : e.commits[i]? = some c)
    (hm : c.phase.attempt? = some m) : ∀ x ∈ h.sinceLaunched i, ∀ b k, x.1.commits[i]? = some b →
      b.phase.attempt? = some k → k.journal.Extends m.journal := by
  refine r.each_attempt (P := fun h _ i _ _ m => ∀ x ∈ h.sinceLaunched i,
    ∀ b k, x.1.commits[i]? = some b → b.phase.attempt? = some k → k.journal.Extends m.journal)
    ?_ ?_ ?_ hc hm
  · intro h e i c call _ hc hp
    have hl : Engine.launches i (e, .advance i) = true := by
      rw [Engine.launches_advance hc, hp]
      rfl
    simp [History.sinceLaunched, hl]
  · intro h e i c call m r hc hp _ ih
    have hk := r.tracked.known_attempt hc (x := m) (by rw [hp]; rfl)
    have he := (Machine.logged (f := c.fiber) (ω := e.world)).extends r.tracked.sound hk
    have hl : Engine.launches i (e, .advance i) = false := by
      rw [Engine.launches_advance hc, hp]
      rfl
    rw [History.sinceLaunched_cons hl]
    refine List.forall_mem_cons.2 ⟨fun b k hb hb' => ?_, fun y hy b k hb hb' => ?_⟩
    · cases hc.symm.trans hb
      rw [hp] at hb'
      cases hb'
      exact he
    · exact (ih y hy b k hb hb').trans he
  · -- Others leave the attempt as it is, so they add nothing but the attempt itself.
    intro h e i c m x _ _ hne hc hm ih
    rw [History.sinceLaunched_cons (Engine.launches_of_ne hne)]
    refine List.forall_mem_cons.2 ⟨fun b k hb hb' => ?_, ih⟩
    cases hc.symm.trans hb
    cases hm.symm.trans hb'
    exact .refl

def Access.outcome (v : Any β) : Access β → Outcome β
  | .leave o => o
  | .write w a => if v.ty = w.ty then .success a else mismatch w.ty

theorem Machine.focus_of_touch {s : Store β} {ω : Ω} {f : FiberId} {d : CellId}
    {g : Any β → Code Ω (Access β)} {a : Access β} (hf : m.focus = .run (.touch d g))
    (ha : g (m.journal.entry s d).current ω = .ok a) :
    (m.step f s ω).1.focus = .exit (a.outcome (m.journal.entry s d).current) := by
  have hs : (m.step f s ω).1.focus = .exit (m.journal.touch s d fun v => g v ω).1 := by
    simp only [step, hf, enter]
  rw [hs]
  unfold Journal.touch Access.outcome
  cases a with
  | leave o => simp only [ha]
  | write w r =>
    by_cases ht : (m.journal.entry s d).current.ty = w.ty
    · obtain ⟨x, hx⟩ := Entry.set_isOk ht
      simp only [ha, hx, ht, if_true]
    · simp only [ha, Entry.set_of_ne ht, ht, if_false]
      rfl

/-- As long as an attempt is under way, a cell reads as the attempt has last written it, if that
stands, or as a value equal to that, and otherwise as it was when the attempt first visited it. No
entry is lost, and none changes but for what waits to be published. -/
theorem Run.snapshot (r : Run h e) (hc : e.commits[i]? = some c) (hm : c.phase.attempt? = some m)
    (d : CellId) :
    (match (h.diary i).written d with
      | some v => (m.journal.entry e.store d).current = v ∨ (m.journal.entry e.store d).current.same v
      | none => (m.journal.entry e.store d).current =
        ((Diary.firstSeen d (h.diary i).visits).getD { expected := e.store.version d }).current) ∧
    (∀ g a, m.focus = .run (.touch d g) → g (m.journal.entry e.store d).current e.world = .ok a →
      (m.step c.fiber e.store e.world).1.focus =
        .exit (a.outcome (m.journal.entry e.store d).current)) ∧
    (m.journal.entries[d]?).map Entry.bare = Diary.firstSeen d (h.diary i).visits ∧
    ∀ x ∈ h.sinceLaunched i, ∀ b k, x.1.commits[i]? = some b → b.phase.attempt? = some k →
      k.journal.Extends m.journal := by
  have hrec := r.records hc hm d
  refine ⟨?_, fun _ _ => Machine.focus_of_touch, hrec, r.extends_since hc hm⟩
  · have href := r.reflects hc hm d
    rw [← hrec, Diary.written]
    cases hv : (h.diary i).kept.findSome? (·.write? d) with
    | some v =>
      simp only [hv] at href
      obtain ⟨x, hx, hxv⟩ := href
      rwa [Journal.entry_eq_of_getElem? hx]
    | none =>
      simp only [hv] at href
      cases hx : m.journal.entries[d]? with
      | none => simp only [Journal.entry, hx, Option.map_none]
      | some x =>
        rw [Journal.entry_eq_of_getElem? hx, Option.map_some, Option.getD_some]
        simp only [Entry.current, Entry.bare, href x hx]

end

def rereading : Tx Unit (.unit : Ty Scenario.Base) .never .nat :=
  let r : Ref (.nat : Ty Scenario.Base) := ⟨⟨1⟩⟩
  r.get.bind fun _ => pure (((r.set (7 : Nat)).bind fun _ => pure .retry).orElse r.get)

def republished : List (Move Scenario.Base Unit) :=
  let turns n i := List.replicate n (Move.advance ⟨i⟩)
  [.alloc ⟨.nat, (3 : Nat)⟩, .commit rereading.tree .never .nat none,
    .commit increment .never .nat none, .poll ⟨1⟩ .thread] ++ turns 5 1 ++
  [.runSync ⟨2⟩] ++ turns 6 2 ++ [.settle ⟨2⟩] ++ turns 7 1

theorem snapshot_republished :
    let p := Engine.play { world := () } [] republished
    ∃ c m, p.2.commits[(⟨1⟩ : CommitId)]? = some c ∧ c.phase.attempt? = some m ∧
      m.focus = .run ((⟨⟨1⟩⟩ : Ref .nat).get : Tx Unit .unit .never .nat).tree ∧
      p.2.store.value ⟨1⟩ = ⟨.nat, (4 : Nat)⟩ ∧
      (m.step c.fiber p.2.store p.2.world).1.focus = .exit (.success ⟨.nat, (3 : Nat)⟩) := by
  intro p
  have r : Run p.1 p.2 := (Run.start ()).play (by decide +kernel)
  let get : Tx Unit (.unit : Ty Scenario.Base) .never .nat := (⟨⟨1⟩⟩ : Ref .nat).get
  obtain ⟨c, m, hc, hm, hf⟩ : ∃ c m, p.2.commits[(⟨1⟩ : CommitId)]? = some c ∧
      c.phase.attempt? = some m ∧ m.focus = .run get.tree :=
    ⟨_, _, by with_unfolding_all rfl, rfl, rfl⟩
  obtain ⟨hread, hanswer, -⟩ := r.snapshot hc hm ⟨1⟩
  have hw : (p.1.diary ⟨1⟩).written ⟨1⟩ = none := by with_unfolding_all rfl
  have hs : (Diary.firstSeen ⟨1⟩ (p.1.diary ⟨1⟩).visits).map Entry.current =
      some ⟨.nat, (3 : Nat)⟩ := by with_unfolding_all rfl
  obtain ⟨x, hx, hx3⟩ := Option.map_eq_some_iff.1 hs
  simp only [hw, hx, Option.getD_some] at hread
  rw [hx3] at hread
  refine ⟨c, m, hc, hm, hf, by with_unfolding_all rfl, ?_⟩
  have h := hanswer _ (.leave (.success ⟨.nat, (3 : Nat)⟩)) hf (by rw [hread]; rfl)
  exact h

end TransactionalMemory
