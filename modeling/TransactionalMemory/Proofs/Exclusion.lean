import TransactionalMemory.Proofs.Journals
import TransactionalMemory.Ref
import TransactionalMemory.Scenario.Val

namespace TransactionalMemory

variable {β : Type} [Universe β] {Ω : Type}

namespace Engine

def state? (e : Engine β Ω) (id : CommitId) : Option State := (e.commits[id]?).map (·.signals.state)

def interrupts (id : CommitId) (x : Engine β Ω × Move β Ω) : Bool :=
  match x.2 with
  | .interrupt k f => k = id && (x.1.interrupt k f).1
  | _ => false

def finishes (id : CommitId) (x : Engine β Ω × Move β Ω) : Bool :=
  x.1.state? id ≠ some .done && (x.1.act x.2).state? id = some .done

/-- The move is a turn of the commit, and gives a cell that was there a new version. -/
def Publishes (id : CommitId) (x : Engine β Ω × Move β Ω) : Prop :=
  x.2 = .advance id ∧ ∃ c ∈ x.1.store.cells, (x.1.act x.2).store.version c ≠ x.1.store.version c

end Engine

namespace Commit

variable {id : CommitId} {c c' : Commit β Ω} {s s' : Store β} {ω : Ω} {call : Call} {p : Point β Ω}
  {woken : List CommitId}

theorem Transition.state (h : c.Transition id s ω call p c' s' woken) :
    c'.signals.state = c.signals.state ∨
      c.signals.state = .running ∧ c'.signals.state = .done := by
  cases h with
  | stop | stall | resume | sleep | begin | giveUp | attempt | launch | step | park | rerun | discard
  | lose | skip | tell | wake | rest | stir => exact .inl rfl
  | leave | finish =>
    rw [finish_fst]
    exact .inl rfl
  | refuse =>
    rw [drop_fst]
    exact .inl rfl
  | conclude _ _ _ _ hs => exact .inr ⟨hs, rfl⟩
  | publish _ _ _ hs => exact .inr ⟨hs, rfl⟩

def Decided (c : Commit β Ω) : Prop :=
  match c.phase with
  | .busy _ (.published _ _) | .busy _ (.waking _ _) => c.signals.state = .done
  | .busy _ (.finishing r) => c.signals.state = .done ∨ r = .error (.interrupt c.fiber)
  | .answered (.ready _) => c.completed
  | _ => True

theorem Decided.heard {g : Signals} (hg : g.state = c.signals.state) (h : c.Decided) :
    { c with signals := g }.Decided := by
  simp only [Decided] at h ⊢
  rw [hg]
  exact h

theorem Transition.decided (h : c.Transition id s ω call p c' s' woken) (hc : c.Decided)
    (hp : c.phase = .busy call p) : c'.Decided := by
  simp only [Decided, hp] at hc
  cases h with
  | stop | resume | sleep | begin | attempt | launch | step | park | rerun | discard | rest
  | stir => trivial
  | stall => simp only [Decided, hp]
  | giveUp | lose => exact .inr rfl
  | conclude | publish => rfl
  | tell => exact hc
  | skip | wake => exact .inl hc
  | leave | finish =>
    rw [finish_fst]
    rfl
  | refuse =>
    rw [drop_fst]
    trivial

end Commit

theorem Commit.Transition.interrupt_of_ready {id : CommitId} {c c' : Commit β Ω} {s s' : Store β}
    {ω : Ω} {call : Call} {p : Point β Ω} {woken : List CommitId} {res : Result β}
    (h : c.Transition id s ω call p c' s' woken) (hc : c.Decided) (hp : c.phase = .busy call p)
    (hs : c.signals.state = .interrupted) (hr : c'.phase = .answered (.ready res)) :
    res = .error (.interrupt c.fiber) := by
  cases h with
  | leave =>
    rw [finish_fst] at hr
    cases hr
    rfl
  | finish =>
    rw [finish_fst] at hr
    cases hr
    simpa [Decided, hp, hs] using hc
  | refuse =>
    rw [drop_fst] at hr
    cases hr
  | stall => cases hp.symm.trans hr
  | stop | resume | sleep | begin | giveUp | attempt | launch | step | park | rerun | discard | lose
  | conclude | publish | skip | tell | wake | rest | stir => cases hr

theorem Run.decided {h : History β Ω} {e : Engine β Ω} (r : Run h e) {id : CommitId}
    {c : Commit β Ω} (hc : e.commits[id]? = some c) : c.Decided := by
  refine r.each (P := fun _ _ _ c => c.Decided) ?_ ?_ Commit.Decided.heard hc
  · intros
    trivial
  · intro h e m i c c' _ _ _ hd hm
    cases hm with
    | keep | setScheduler | setWatched => exact hd
    | poll | runSync | settle => trivial
    | refuse _ _ hf => exact hf
    | setFiber _ hi => simp only [Commit.Decided, hi]
    | drop _ hi =>
      rw [Commit.drop_fst]
      simp only [Commit.Decided, hi]
    | interrupt hr =>
      simp only [Commit.Decided, hr] at hd ⊢
      split at hd <;> simp_all
    | turn hp ht => exact ht.decided hd hp

namespace Engine

variable {e : Engine β Ω} {m : Move β Ω} {id : CommitId} {c : Commit β Ω}

theorem interrupt_fst (e : Engine β Ω) (id : CommitId) (f : FiberId) :
    (e.interrupt id f).1 = true ↔ e.state? id = some .running := by
  unfold interrupt state?
  cases e.commits[id]? with
  | none => simp
  | some c => by_cases h : c.signals.state = .running <;> simp [Signals.interrupt, h]

inductive Shift (id : CommitId) (x : Engine β Ω × Move β Ω) : Prop
  | keep : interrupts id x = false → finishes id x = false →
    (x.1.act x.2).state? id = x.1.state? id → Shift id x
  | new : interrupts id x = false → finishes id x = false → x.1.state? id = none →
    (x.1.act x.2).state? id = some .running → Shift id x
  | interrupt : interrupts id x → finishes id x = false → x.1.state? id = some .running →
    (x.1.act x.2).state? id = some .interrupted → Shift id x
  | finish : x.2 = .advance id → interrupts id x = false → finishes id x →
    x.1.state? id = some .running → (x.1.act x.2).state? id = some .done → Shift id x

theorem phase_of_answer? {c : Commit β Ω} {a : Answer β} (h : e.commits[id]? = some c)
    (ha : e.answer? id = some a) : c.phase = .answered a := by
  simp only [answer?, h] at ha
  split at ha
  · cases ha
    assumption
  · cases ha

theorem state?_eq {c d : Commit β Ω} (hd : c.Hears d) (h : e.commits[id]? = some d) :
    e.state? id = some c.signals.state := by
  obtain ⟨g, rfl, hg⟩ := hd.frame
  rw [state?, h, Option.map_some]
  exact congrArg some hg

theorem finishes_eq_false (h : (e.act m).state? id = e.state? id) : finishes id (e, m) = false := by
  simp [finishes, h]

theorem state?_of_interrupts (h : interrupts id (e, m)) :
    e.state? id = some .running ∧ (e.act m).state? id = some .interrupted := by
  unfold interrupts at h
  split at h
  · rename_i k f hm
    cases hm
    simp only [Bool.and_eq_true, decide_eq_true_eq] at h
    obtain ⟨rfl, hf⟩ := h
    have hs := (e.interrupt_fst k f).1 hf
    refine ⟨hs, ?_⟩
    obtain ⟨c, hc, hr⟩ := Option.map_eq_some_iff.1 hs
    simp [state?, act, interrupt, hc, Signals.interrupt, hr, commits_wake?, put]
  · cases h

theorem shift (id : CommitId) (he : e.Tracked) (hm : e.admits m) : Shift id (e, m) := by
  cases hi : interrupts id (e, m) with
  | true =>
    obtain ⟨hs, hs'⟩ := state?_of_interrupts hi
    exact .interrupt hi (by simp [finishes, hs']) hs hs'
  | false =>
    cases hc : e.commits[id]? with
    | none =>
      have hs : e.state? id = none := by simp [state?, hc]
      cases hc' : (e.act m).commits[id]? with
      | none =>
        have hs' : (e.act m).state? id = e.state? id := by simp [state?, hc, hc']
        exact .keep hi (finishes_eq_false hs') hs'
      | some c =>
        obtain ⟨t, E, A, s, rfl, rfl, rfl⟩ := fresh_of_act hm hc hc'
        have hs' : (e.act (.commit t E A s)).state? e.nextCommit = some .running := by
          rw [state?, hc']
          rfl
        exact .new hi (by simp [finishes, hs']) hs hs'
    | some c =>
      have hs := state?_eq .calm hc
      obtain ⟨c', d, hmv, hd, h⟩ := moved hm hc (he.ne_nextCommit hc)
      have hs' := state?_eq hd h
      have keep (hk : c'.signals.state = c.signals.state) : Shift id (e, m) := by
        have hk' : (e.act m).state? id = e.state? id := by rw [hs', hs, hk]
        exact .keep hi (finishes_eq_false hk') hk'
      cases hmv with
      | keep | setFiber | setScheduler | setWatched | poll | refuse | runSync | settle =>
        exact keep rfl
      | drop =>
        apply keep
        rw [Commit.drop_fst]
      | @interrupt _ f hr =>
        have hf : (e.interrupt id f).1 = true := (e.interrupt_fst id f).2 (hr ▸ hs)
        simp [interrupts, hf] at hi
      | turn hp ht =>
        rcases ht.state with hk | ⟨hr, hd⟩
        · exact keep hk
        · rw [hr] at hs
          rw [hd] at hs'
          exact .finish rfl hi (by simp [finishes, hs, hs']) hs hs'

theorem put_self (hc : e.commits[id]? = some c) : e.put id c = e := by
  have h : e.commits.insert id c = e.commits := by
    apply Std.ExtTreeMap.ext_getElem?
    intro k
    rw [Std.ExtTreeMap.getElem?_insert]
    split
    · rename_i hk
      rw [Std.LawfulEqOrd.compare_eq_iff_eq] at hk
      rw [← hk, hc]
    · rfl
  rw [put, h]

theorem notify_of_ne (hc : e.commits[id]? = some c) (hs : c.signals.state ≠ .running) :
    e.notify id = e := by
  simp only [notify, hc, Signals.notify_of_ne hs]
  split
  · exact put_self hc
  · rfl

end Engine

section

variable {h : History β Ω} {e : Engine β Ω} {id : CommitId}

theorem Run.before {h₁ h₂ : History β Ω} {x : Engine β Ω × Move β Ω} (r : Run (h₁ ++ x :: h₂) e) :
    Run h₂ x.1 ∧ x.1.admits x.2 := by
  induction h₁ generalizing e with
  | nil =>
    cases r with
    | next r hm => exact ⟨r, hm⟩
  | cons z h₁ ih =>
    cases r with
    | next r _ => exact ih r

theorem Run.of_mem (r : Run h e) {x : Engine β Ω × Move β Ω} (hx : x ∈ h) :
    (∃ h', Run h' x.1) ∧ x.1.admits x.2 := by
  obtain ⟨_, _, rfl⟩ := List.append_of_mem hx
  exact ⟨⟨_, r.before.1⟩, r.before.2⟩

theorem Run.countP (r : Run h e) (id : CommitId) :
    h.countP (Engine.interrupts id) = (if e.state? id = some .interrupted then 1 else 0) ∧
      h.countP (Engine.finishes id) = if e.state? id = some .done then 1 else 0 := by
  induction r with
  | start ω => simp [Engine.state?]
  | @next h e m r hm ih =>
    rw [List.countP_cons, List.countP_cons, ih.1, ih.2]
    rcases Engine.shift id r.tracked hm with
      ⟨hi, hf, hs⟩ | ⟨hi, hf, hs, hs'⟩ | ⟨hi, hf, hs, hs'⟩ | ⟨-, hi, hf, hs, hs'⟩
    · simp only at hs
      simp [hi, hf, hs]
    all_goals
      simp only at hs hs'
      simp [hi, hf, hs, hs']

theorem Run.finishes_of_publishes (r : Run h e) {x : Engine β Ω × Move β Ω} (hx : x ∈ h)
    (hp : Engine.Publishes id x) : Engine.finishes id x := by
  obtain ⟨⟨_, r'⟩, hm⟩ := r.of_mem hx
  obtain ⟨e', m⟩ := x
  obtain ⟨rfl, d, hd, hne⟩ := hp
  have he := r'.tracked
  obtain ⟨c, hc⟩ := Engine.exists_of_advance hm
  obtain ⟨c', b, hmv, hb, h⟩ := Engine.moved hm hc (he.ne_nextCommit hc)
  have hs := Engine.state?_eq .calm hc
  have hs' := Engine.state?_eq hb h
  cases hmv with
  | keep hn => exact absurd rfl hn
  | turn hp ht =>
    rcases ht.version_eq (he.known id c hc) hp he.sound with h | ⟨hr, hd', -⟩
    · exact absurd (h d hd) hne
    · rw [hr] at hs
      rw [hd'] at hs'
      simp [Engine.finishes, hs, hs']

theorem Run.advance_of_finishes (r : Run h e) {x : Engine β Ω × Move β Ω} (hx : x ∈ h)
    (hf : Engine.finishes id x) : x.2 = .advance id := by
  obtain ⟨⟨_, r'⟩, hm⟩ := r.of_mem hx
  cases Engine.shift id r'.tracked hm with
  | finish ha => exact ha
  | keep _ hf' | new _ hf' | interrupt _ hf' =>
    rw [hf'] at hf
    cases hf

theorem Run.interrupt_of_ready (r : Run h e) {m : Move β Ω} {c : Commit β Ω} {res : Result β}
    (hm : e.admits m) (hc : e.commits[id]? = some c) (hs : c.signals.state = .interrupted)
    (hn : c.completed = false) (ha : (e.act m).answer? id = some (.ready res)) :
    res = .error (.interrupt c.fiber) := by
  have hd := r.decided hc
  obtain ⟨c', d, hmv, hd', h⟩ := Engine.moved hm hc (r.tracked.ne_nextCommit hc)
  have hp' : c'.phase = .answered (.ready res) := by
    have hp := Engine.phase_of_answer? h ha
    obtain ⟨g, rfl, -⟩ := hd'.frame
    exact hp
  -- A commit that had answered before would have completed.
  have old (hp : c.phase = .answered (.ready res)) : False := by
    simp only [Commit.Decided, hp, hn, Bool.false_eq_true] at hd
  cases hmv with
  | keep | setFiber | setScheduler | setWatched | interrupt => exact (old hp').elim
  | poll | runSync | settle => cases hp'
  | refuse _ _ hf =>
    rw [hn] at hf
    cases hf
  | drop =>
    rw [Commit.drop_fst] at hp'
    exact (old hp').elim
  | turn hp ht => exact ht.interrupt_of_ready hd hp hs hp'

/-- The first interrupt of a running commit and the first attempt of it to be published exclude each
other, for all time. -/
theorem Run.exclusive (r : Run h e) (id : CommitId) :
    h.countP (Engine.interrupts id) + h.countP (Engine.finishes id) ≤ 1 ∧
    (∀ x ∈ h, Engine.finishes id x → x.2 = .advance id) ∧
    (∀ x ∈ h, Engine.Publishes id x → Engine.finishes id x) ∧
    ((∃ x ∈ h, Engine.interrupts id x) → e.state? id = some .interrupted ∧
      (∀ x ∈ h, ¬ Engine.Publishes id x) ∧
      ∀ m c res, e.admits m → e.commits[id]? = some c → c.completed = false →
        (e.act m).answer? id = some (.ready res) → res = .error (.interrupt c.fiber)) ∧
    ((∃ x ∈ h, Engine.finishes id x) → e.state? id = some .done) ∧
    (e.state? id = some .done → ∀ f, (e.interrupt id f).1 = false) ∧
    (∀ c, e.commits[id]? = some c → c.signals.state ≠ .running → e.notify id = e) := by
  obtain ⟨hi, hf⟩ := r.countP id
  have interrupted (hx : ∃ x ∈ h, Engine.interrupts id x) : e.state? id = some .interrupted := by
    have := List.countP_pos_iff.2 hx
    rw [hi] at this
    split at this
    · assumption
    · cases this
  have done (hx : ∃ x ∈ h, Engine.finishes id x) : e.state? id = some .done := by
    have := List.countP_pos_iff.2 hx
    rw [hf] at this
    split at this
    · assumption
    · cases this
  refine ⟨?_, fun x => r.advance_of_finishes, fun x => r.finishes_of_publishes, ?_, done, ?_, ?_⟩
  · rw [hi, hf]
    split
    · rename_i hs
      simp [hs]
    · split <;> simp
  · intro hx
    have hs := interrupted hx
    refine ⟨hs, ?_, ?_⟩
    · intro x hx hp
      have := done ⟨x, hx, r.finishes_of_publishes hx hp⟩
      rw [hs] at this
      cases this
    · intro m c res hm hc hn ha
      have hs' : c.signals.state = .interrupted := by simpa [Engine.state?, hc] using hs
      exact r.interrupt_of_ready hm hc hs' hn ha
  · intro hs f
    have := e.interrupt_fst id f
    simpa [hs] using this
  · intro c hc hs
    exact Engine.notify_of_ne hc hs

end

def interruptedAttempt : List (Move Scenario.Base Unit) :=
  let write := ((⟨⟨1⟩⟩ : Ref (.nat : Ty Scenario.Base)).set (R := .unit) (E := .never)
    (Ω := Unit) (4 : Nat)).tree
  [.alloc ⟨.nat, (3 : Nat)⟩, .commit write .never .unit none, .poll ⟨1⟩ .thread] ++
    List.replicate 4 (.advance ⟨1⟩) ++ [.interrupt ⟨1⟩ ⟨9⟩, .interrupt ⟨1⟩ ⟨8⟩, .advance ⟨1⟩]

theorem exclusive_interruptedAttempt :
    let p := Engine.play { world := () } [] interruptedAttempt
    (∃ x ∈ p.1, Engine.interrupts ⟨1⟩ x) ∧ p.2.admits (.advance ⟨1⟩) ∧
      (∀ x ∈ p.1, ¬ Engine.Publishes ⟨1⟩ x) ∧
      ∃ c res, p.2.commits[(⟨1⟩ : CommitId)]? = some c ∧
        (p.2.act (.advance ⟨1⟩)).answer? ⟨1⟩ = some (.ready res) ∧
        res = .error (.interrupt c.fiber) := by
  intro p
  have r : Run p.1 p.2 := (Run.start ()).play (by decide +kernel)
  obtain ⟨-, -, -, hi, -⟩ := r.exclusive ⟨1⟩
  have hx : ∃ x ∈ p.1, Engine.interrupts ⟨1⟩ x := by
    rw [← List.any_eq_true]
    decide +kernel
  have hm : p.2.admits (.advance ⟨1⟩) := by decide +kernel
  obtain ⟨-, hn, hr⟩ := hi hx
  obtain ⟨c, hc⟩ : ∃ c, p.2.commits[(⟨1⟩ : CommitId)]? = some c :=
    Option.isSome_iff_exists.1 (by decide +kernel)
  have hf : (p.2.commits[(⟨1⟩ : CommitId)]?).map (·.completed) = some false := by decide +kernel
  rw [hc, Option.map_some, Option.some.injEq] at hf
  have ha : (p.2.act (.advance ⟨1⟩)).answer? ⟨1⟩ =
    some (.ready (.error (.interrupt ⟨1⟩))) := by with_unfolding_all rfl
  exact ⟨hx, hm, hn, c, _, hc, ha, hr _ c _ hm hc hf ha⟩

end TransactionalMemory
