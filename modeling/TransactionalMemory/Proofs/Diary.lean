import Mathlib.Data.List.Forall2
import TransactionalMemory.Proofs.Meaning
import TransactionalMemory.Proofs.Writes

namespace TransactionalMemory

variable {β : Type} [Universe β] {Ω : Type}

/-- The machine of an attempt that is about to make a step, and what it finds. -/
structure Moment (β : Type) [Universe β] (Ω : Type) where
  machine : Machine β Ω
  scene : Scene β Ω

def Machine.rollsBack (m : Machine β Ω) : Bool :=
  match m.focus, m.frames with
  | .exit .retry, .orElse _ _ :: _ => true
  | _, _ => false

namespace Moment

def cell? (y : Moment β Ω) : Option CellId :=
  match y.machine.focus with
  | .run (.touch c _) => some c
  | .run (.make _ _) => some y.scene.store.nextCell
  | _ => none

def next (y : Moment β Ω) (f : FiberId) : Machine β Ω :=
  (y.machine.step f y.scene.store y.scene.world).1

end Moment

structure Diary (β : Type) [Universe β] (Ω : Type) where
  visits : List (Moment β Ω) := []
  kept : List (Moment β Ω) := []
  marks : List (List (Moment β Ω)) := []

def Diary.note (d : Diary β Ω) (f : FiberId) (y : Moment β Ω) : Diary β Ω :=
  let new := if y.cell?.isSome then [y] else []
  let kept := new ++ if y.machine.rollsBack then d.marks.headD [] else d.kept
  let before := y.machine.frames.length
  let after := (y.next f).frames.length
  { visits := new ++ d.visits
    kept
    marks := if before < after then kept :: d.marks else d.marks.drop (before - after) }

def Phase.diary (p : Phase β Ω) (f : FiberId) (d : Diary β Ω) (x : Scene β Ω) : Diary β Ω :=
  match p.attempt? with
  | some m => if m.outcome?.isSome then d else d.note f ⟨m, x⟩
  | none => {}

def History.diary (i : CommitId) : History β Ω → Diary β Ω
  | [] => {}
  | (e, .advance k) :: h =>
    if k = i then
      match e.commits[i]? with
      | some c => c.phase.diary c.fiber (diary i h) ⟨e.store, e.world⟩
      | none => {}
    else diary i h
  | _ :: h => diary i h

section

variable {h : History β Ω} {e : Engine β Ω} {i : CommitId} {c : Commit β Ω}

theorem History.diary_of_ne {m : Move β Ω} (hm : m ≠ .advance i) :
    diary i ((e, m) :: h) = h.diary i := by
  cases m with
  | advance k => exact if_neg fun hk => hm (congrArg _ hk)
  | _ => rfl

theorem History.diary_advance (hc : e.commits[i]? = some c) :
    diary i ((e, .advance i) :: h) = c.phase.diary c.fiber (h.diary i) ⟨e.store, e.world⟩ := by
  rw [diary, if_pos rfl, hc]

theorem History.diary_launch {call : Call} (hc : e.commits[i]? = some c)
    (hp : c.phase = .busy call .launching) : diary i ((e, .advance i) :: h) = {} := by
  rw [diary_advance hc, hp]
  rfl

theorem History.diary_step {call : Call} {m : Machine β Ω} (hc : e.commits[i]? = some c)
    (hp : c.phase = .busy call (.running m)) (ho : m.outcome? = none) :
    diary i ((e, .advance i) :: h) = (h.diary i).note c.fiber ⟨m, ⟨e.store, e.world⟩⟩ := by
  rw [diary_advance hc, hp]
  simp only [Phase.diary, Phase.attempt?, ho]
  rfl

end

namespace Diary

inductive Noted (d : Diary β Ω) (f : FiberId) (y : Moment β Ω) : Diary β Ω → Prop
  | visit : y.cell?.isSome → (y.next f).frames = y.machine.frames →
    Noted d f y { d with visits := y :: d.visits, kept := y :: d.kept }
  | stay : y.cell? = none → (y.next f).frames = y.machine.frames →
    (y.next f).journal = y.machine.journal → Noted d f y d
  | push (g : Frame β Ω) : y.cell? = none → (y.next f).frames = g :: y.machine.frames →
    (y.next f).journal = y.machine.journal →
    (∀ k r, g = .orElse k r → k = y.machine.journal.checkpoint) →
    Noted d f y { d with marks := d.kept :: d.marks }
  | pop (g : Frame β Ω) : y.cell? = none → y.machine.frames = g :: (y.next f).frames →
    (y.next f).journal = y.machine.journal → Noted d f y { d with marks := d.marks.tail }
  | rollback (k : Checkpoint β) (r : Tree β Ω) : y.cell? = none → y.machine.focus = .exit .retry →
    y.machine.frames = .orElse k r :: (y.next f).frames →
    (y.next f).journal = y.machine.journal.rollback k →
    Noted d f y { d with kept := d.marks.headD [], marks := d.marks.tail }

variable {d : Diary β Ω} {f : FiberId} {y : Moment β Ω}

theorem Noted.of_visit (hc : y.cell?.isSome) (hr : y.machine.rollsBack = false)
    (hf : (y.next f).frames = y.machine.frames) : d.Noted f y (d.note f y) := by
  have h : d.note f y = { d with visits := y :: d.visits, kept := y :: d.kept } := by
    simp [note, hc, hr, hf]
  rw [h]
  exact .visit hc hf

theorem Noted.of_stay (hc : y.cell? = none) (hr : y.machine.rollsBack = false)
    (hf : (y.next f).frames = y.machine.frames)
    (hj : (y.next f).journal = y.machine.journal) : d.Noted f y (d.note f y) := by
  have h : d.note f y = d := by simp [note, hc, hr, hf]
  rw [h]
  exact .stay hc hf hj

theorem Noted.of_push {g : Frame β Ω} (hc : y.cell? = none) (hr : y.machine.rollsBack = false)
    (hf : (y.next f).frames = g :: y.machine.frames)
    (hj : (y.next f).journal = y.machine.journal)
    (hg : ∀ k r, g = .orElse k r → k = y.machine.journal.checkpoint) :
    d.Noted f y (d.note f y) := by
  have h : d.note f y = { d with marks := d.kept :: d.marks } := by simp [note, hc, hr, hf]
  rw [h]
  exact .push g hc hf hj hg

theorem Noted.of_pop {g : Frame β Ω} (hc : y.cell? = none) (hr : y.machine.rollsBack = false)
    (hf : y.machine.frames = g :: (y.next f).frames)
    (hj : (y.next f).journal = y.machine.journal) : d.Noted f y (d.note f y) := by
  have h : d.note f y = { d with marks := d.marks.tail } := by
    have hlt : ¬ (y.next f).frames.length + 1 < (y.next f).frames.length := by omega
    simp [note, hc, hr, hf, hlt]
  rw [h]
  exact .pop g hc hf hj

theorem noted_run {t : Tree β Ω} (ht : y.machine.focus = .run t) : d.Noted f y (d.note f y) := by
  obtain ⟨⟨focus, env, fs, j⟩, x⟩ := y
  subst ht
  cases t with
  | touch | make => exact .of_visit rfl rfl rfl
  | effect | crash | once => exact .of_stay rfl rfl rfl rfl
  | onSuccess | onSuccessOnce | onFailure | onRetry | loop =>
    exact .of_push rfl rfl rfl rfl (by rintro _ _ ⟨⟩)
  | orElse l r =>
    refine .of_push rfl rfl rfl rfl ?_
    rintro k r ⟨⟩
    rfl
  | provide t g =>
    cases hg : g env x.world with
    | error p =>
      have h : (Moment.next ⟨⟨.run (.provide t g), env, fs, j⟩, x⟩ f) =
          ⟨.exit (.halt (.ofPanic p)), env, fs, j⟩ := by
        simp [Moment.next, Machine.step, Machine.enter, hg]
      exact .of_stay rfl rfl (by rw [h]) (by rw [h])
    | ok r =>
      cases r with
      | error w =>
        have h : (Moment.next ⟨⟨.run (.provide t g), env, fs, j⟩, x⟩ f) =
            ⟨.exit (.halt w), env, fs, j⟩ := by
          simp [Moment.next, Machine.step, Machine.enter, hg]
        exact .of_stay rfl rfl (by rw [h]) (by rw [h])
      | ok env' =>
        have h : (Moment.next ⟨⟨.run (.provide t g), env, fs, j⟩, x⟩ f) =
            ⟨.run t, env', .restore env :: fs, j⟩ := by
          simp [Moment.next, Machine.step, Machine.enter, hg]
        exact .of_push (g := .restore env) rfl rfl (by rw [h]) (by rw [h]) (by rintro _ _ ⟨⟩)

theorem noted_exit {o : Outcome β} (ho : y.machine.focus = .exit o) : d.Noted f y (d.note f y) := by
  obtain ⟨⟨focus, env, fs, j⟩, x⟩ := y
  subst ho
  cases fs with
  | nil => cases o <;> exact .of_stay rfl rfl rfl rfl
  | cons g fs =>
    cases o with
    | retry =>
      cases g with
      | orElse k r =>
        have hlt : ¬ fs.length + 1 < fs.length := by omega
        have h : d.note f ⟨⟨.exit .retry, env, .orElse k r :: fs, j⟩, x⟩ =
            { d with kept := d.marks.headD [], marks := d.marks.tail } := by
          simp [note, Moment.cell?, Machine.rollsBack, Moment.next, Machine.step, Machine.unwind, hlt]
        rw [h]
        exact .rollback k r rfl rfl rfl rfl
      | onSuccess | onFailure | onRetry | restore => exact .of_pop rfl rfl rfl rfl
    | success | failure | halt | interrupt => cases g <;> exact .of_pop rfl rfl rfl rfl

theorem noted : d.Noted f y (d.note f y) := by
  cases hf : y.machine.focus with
  | run t => exact noted_run hf
  | exit o => exact noted_exit hf

end Diary

namespace Journal

def Widens (j k : Journal β) : Prop :=
  ∀ c : CellId, k.entries[c]? = j.entries[c]? ∨
    j.entries[c]? = none ∧ ∃ x, k.entries[c]? = some x ∧ x.pending = none

variable {j j' : Journal β} {k : Checkpoint β}

theorem Extends.widens (h : j.Extends j') (hk : ∀ c : CellId, j.entries[c]? = none → k[c]? = none) :
    (j.rollback k).Widens (j'.rollback k) := by
  intro c
  simp only [getElem?_rollback]
  cases hj : j.entries[c]? with
  | none =>
    cases hj' : j'.entries[c]? with
    | none => exact .inl rfl
    | some x =>
      refine .inr ⟨rfl, _, rfl, ?_⟩
      simp only [hk c hj]
      rfl
  | some x =>
    obtain ⟨p, hp⟩ := h c x hj
    rw [hp]
    exact .inl rfl

end Journal

namespace Diary

/-- A relation between the visits that stand and the journal: it holds now, and will hold again after a
rollback to any frame. -/
structure Keeps (R : List (Moment β Ω) → Journal β → Prop) (d : Diary β Ω) (m : Machine β Ω) :
    Prop where
  kept : R d.kept m.journal
  marks : List.Forall₂ (fun g l => ∀ k r, g = .orElse k r →
    (∀ c : CellId, m.journal.entries[c]? = none → k[c]? = none) ∧ R l (m.journal.rollback k))
    m.frames d.marks

variable {R : List (Moment β Ω) → Journal β → Prop} {d : Diary β Ω} {f : FiberId} {y : Moment β Ω}

theorem Keeps.start {t : Tree β Ω} {env : Any β} (h : R [] {}) : Keeps R {} (.start t env) :=
  ⟨h, .nil⟩

theorem Keeps.step (h : d.Keeps R y.machine)
    (wide : ∀ {l j k}, R l j → j.Widens k → R l k)
    (he : y.machine.journal.Extends (y.next f).journal)
    (visit : y.cell?.isSome → R d.kept y.machine.journal → R (y :: d.kept) (y.next f).journal) :
    (d.note f y).Keeps R (y.next f) := by
  -- What will hold after a rollback does not depend on what is done until then.
  have frame {g : Frame β Ω} {l : List (Moment β Ω)} (hg : ∀ k r, g = .orElse k r →
      (∀ c : CellId, y.machine.journal.entries[c]? = none → k[c]? = none) ∧
        R l (y.machine.journal.rollback k)) (k : Checkpoint β) (r : Tree β Ω) (hk : g = .orElse k r) :
      (∀ c : CellId, (y.next f).journal.entries[c]? = none → k[c]? = none) ∧
        R l ((y.next f).journal.rollback k) := by
    obtain ⟨hn, hR⟩ := hg k r hk
    exact ⟨fun c hc => hn c (he.getElem?_eq_none hc), wide hR (he.widens hn)⟩
  have hmarks := h.marks.imp fun _ _ => frame
  have hn := noted (d := d) (f := f) (y := y)
  generalize d.note f y = d' at hn
  cases hn with
  | visit hc hf => exact ⟨visit hc h.kept, by rwa [hf]⟩
  | stay hc hf hj => exact ⟨by rw [hj]; exact h.kept, by rwa [hf]⟩
  | push g hc hf hj hg =>
    refine ⟨by rw [hj]; exact h.kept, ?_⟩
    rw [hf]
    refine .cons (fun k r hk => ?_) hmarks
    rw [hj, hg k r hk, Journal.rollback_checkpoint]
    exact ⟨fun c hc => by simp [Journal.getElem?_checkpoint, hc], h.kept⟩
  | pop g hc hf hj =>
    rw [hf] at hmarks
    obtain ⟨l, ls, -, hrest, hl⟩ := List.forall₂_cons_left_iff.1 hmarks
    rw [hl]
    exact ⟨by rw [hj]; exact h.kept, hrest⟩
  | rollback k r hc hf hfs hj =>
    have hnow := h.marks
    rw [hfs] at hmarks hnow
    obtain ⟨l, ls, -, hrest, hl⟩ := List.forall₂_cons_left_iff.1 hmarks
    rw [hl, List.forall₂_cons] at hnow
    rw [hl]
    refine ⟨?_, hrest⟩
    rw [hj]
    exact (hnow.1 k r rfl).2

end Diary

/-- What every visit of an attempt preserves, of the visits that stand and the journal, holds as long
as the attempt is under way. -/
theorem Run.keeps {R : List (Moment β Ω) → Journal β → Prop} {Q : Engine β Ω × Move β Ω → Prop}
    (start : R [] {}) (wide : ∀ {l j k}, R l j → j.Widens k → R l k)
    (visit : ∀ {e : Engine β Ω} {i : CommitId} {c : Commit β Ω} {y : Moment β Ω}, Q (e, .advance i) →
      e.commits[i]? = some c → c.phase.attempt? = some y.machine →
      y.machine.journal.Known y.scene.store → y.scene.store.Sound → y.cell?.isSome →
      ∀ l, R l y.machine.journal → R (y :: l) (y.next c.fiber).journal)
    {h : History β Ω} {e : Engine β Ω} (r : Run h e) (hQ : ∀ x ∈ h, Q x) {i : CommitId}
    {c : Commit β Ω} (hc : e.commits[i]? = some c) {m : Machine β Ω}
    (hm : c.phase.attempt? = some m) : (h.diary i).Keeps R m := by
  refine r.each_attempt (P := fun h _ i _ _ m => (∀ x ∈ h, Q x) → (h.diary i).Keeps R m)
    ?_ ?_ ?_ hc hm hQ
  · intro h e i c call _ hc hp _
    rw [History.diary_launch hc hp]
    exact .start start
  · intro h e i c call m r hc hp ho ih hx
    obtain ⟨hnow, hrest⟩ := List.forall_mem_cons.1 hx
    rw [History.diary_step hc hp ho]
    have hm : c.phase.attempt? = some m := by rw [hp]; rfl
    have hk := r.tracked.known_attempt hc hm
    exact (ih hrest).step (y := ⟨m, ⟨e.store, e.world⟩⟩) wide
      (Machine.logged.extends r.tracked.sound hk)
      fun hy => visit hnow hc hm hk r.tracked.sound hy _
  · intro h e i c m x _ _ hne _ _ ih hx
    rw [History.diary_of_ne hne]
    exact ih (List.forall_mem_cons.1 hx).2

end TransactionalMemory
