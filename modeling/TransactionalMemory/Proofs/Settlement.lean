import TransactionalMemory.Proofs.Accounts
import TransactionalMemory.Proofs.Operations

namespace TransactionalMemory

variable {β : Type} [Universe β] {Ω : Type}

theorem Exit.eq_halt_of_result? {ε α : Type} {o : Exit ε α} {d : Defect}
    (h : o.result? = some (.error (.halt d))) : o = .halt d := by
  cases o with
  | halt d' =>
    cases h
    rfl
  | success | failure | interrupt | retry => cases h

theorem Exit.eq_halt_message_of_conform {E A : Ty β} {o : Outcome β} {t : String}
    (h : o.conform E A = .halt (.message t)) : o = .halt (.message t) := by
  cases o with
  | success v => by_cases hv : v.ty = A <;> simp [conform, mismatch, hv] at h
  | failure v => by_cases hv : v.ty = E <;> simp [conform, mismatch, hv] at h
  | halt d => exact h
  | interrupt | retry => cases h

namespace Journal

variable {j : Journal β} {s : Store β}

theorem publish_of_readWrite (h : j.analyze s = .readWrite) : ∃ w t k, j.publish s = .ok (w, t, k) := by
  unfold analyze at h
  cases hv : j.isValid s with
  | false =>
    rw [hv] at h
    cases h
  | true => exact ⟨_, _, _, by rw [publish, hv]; rfl⟩

def version (j : Journal β) (s : Store β) (c : CellId) : Version β :=
  match j.pending c with
  | some v => ⟨c, s.now, v⟩
  | none => s.version c

theorem version_publish {w : Waiting} {t : Store β} {k : Journal β} (h : j.publish s = .ok (w, t, k))
    (c : CellId) : t.version c = j.version s c := by
  unfold version
  obtain ⟨x, v, hx, hv, e⟩ | ⟨hn, e⟩ := cell_publish h c
  · have hp : j.pending c = some v := by rw [pending, hx, Option.bind_some, hv]
    rw [Store.version, e, hp]
  · have hp : j.pending c = none := by
      unfold pending
      cases hx : j.entries[c]? with
      | none => rfl
      | some x => exact hn x hx
    rw [Store.version, e, hp]
    rfl

theorem version_of_unchanged (h : j.isChanged = false) (c : CellId) : j.version s c = s.version c := by
  have hp : j.pending c = none := by
    refine Option.eq_none_iff_forall_ne_some.2 fun v hv => ?_
    obtain ⟨x, hx, hv⟩ := Option.bind_eq_some_iff.1 hv
    have hc : j.isChanged = true := (isChanged_iff j).2 ⟨c, x, hx, by rw [Entry.isChanged, hv]; rfl⟩
    cases h.symm.trans hc
  rw [version, hp]

end Journal

namespace Commit

variable {id : CommitId} {c c' : Commit β Ω} {s s' : Store β} {ω : Ω} {call : Call} {p : Point β Ω}
  {woken : List CommitId} {f : FiberId} {why : Refusal}

theorem notice_conclude {o : Outcome β} {j : Journal β} :
    (c.conclude call s ω o j).notice ≠ some (.publicationFailed f why) := by
  unfold conclude
  cases ha : j.analyze s with
  | invalid => exact nofun
  | readOnly => cases c.signals.finish <;> exact nofun
  | readWrite =>
    cases c.signals.finish with
    | none => exact nofun
    | some g =>
      obtain ⟨w, t, k, h⟩ := Journal.publish_of_readWrite ha
      simp only [h]
      exact nofun

theorem notice_run : (c.run id call s ω p).notice ≠ some (.publicationFailed f why) := by
  cases p with
  | top =>
    simp only [run, look]
    split
    · rintro ⟨⟩
    · split
      · split
        · rintro ⟨⟩
        · split <;> rintro ⟨⟩
      · rintro ⟨⟩
  | leaving | launching | waking | finishing => rintro ⟨⟩
  | starting =>
    simp only [run]
    split <;> rintro ⟨⟩
  | running m =>
    simp only [run]
    split
    · rintro ⟨⟩
    · split
      · split
        · cases call <;> rintro ⟨⟩
        · rintro ⟨⟩
      · exact notice_conclude
  | published r woken => cases woken <;> rintro ⟨⟩
  | parking j seen =>
    simp only [run]
    split <;> rintro ⟨⟩

theorem Transition.halt_cases {d : Defect} (h : c.Transition id s ω call p c' s' woken)
    (hp : c.phase = .busy call p) (hr : c'.phase.result? = some (.error (.halt d))) :
    c.phase.result? = some (.error (.halt d)) ∨ ∃ m o, p = .running m ∧ m.outcome? = some o ∧
      o.conform c.errorTy c.valueTy = .halt d ∧ m.journal.isValid s ∧ c.signals.state = .running := by
  cases h with
  | skip | tell | wake =>
    rw [hp]
    exact .inl hr
  | finish =>
    rw [finish_fst] at hr
    rw [hp]
    exact .inl hr
  | conclude ho hres hv _ hs =>
    cases hr
    exact .inr ⟨_, _, rfl, ho, Exit.eq_halt_of_result? hres, hv, hs⟩
  | publish ho hres _ hs hpub =>
    cases hr
    exact .inr ⟨_, _, rfl, ho, Exit.eq_halt_of_result? hres, (Journal.publish_eq_ok hpub).1, hs⟩
  | leave =>
    rw [finish_fst] at hr
    cases hr
  | refuse =>
    rw [drop_fst] at hr
    cases hr
  | stall =>
    rw [hp] at hr
    cases hr
  | stop | resume | sleep | begin | giveUp | attempt | launch | step | park | rerun | discard | lose
  | rest | stir => cases hr

theorem Transition.version_of_published {m : Machine β Ω} {r : Result β} {w : List CommitId}
    (h : c.Transition id s ω call (.running m) c' s' woken)
    (hr : c'.phase = .busy call (.published r w)) (d : CellId) : s'.version d = m.journal.version s d := by
  cases h with
  | conclude _ _ _ hw => exact (Journal.version_of_unchanged hw d).symm
  | publish _ _ _ _ hpub => exact Journal.version_publish hpub d
  | refuse =>
    rw [drop_fst] at hr
    cases hr
  | step | park | rerun | discard | lose => cases hr

end Commit

namespace Engine

/-- The move finishes the commit, and this is the exit of the attempt that it concludes. -/
structure Concludes (id : CommitId) (x : Engine β Ω × Move β Ω) (c : Commit β Ω) (m : Machine β Ω)
    (o : Outcome β) : Prop where
  finishes : Engine.finishes id x
  commit : x.1.commits[id]? = some c
  attempt : c.phase.attempt? = some m
  exit : m.outcome? = some o

variable {e : Engine β Ω} {id : CommitId} {c : Commit β Ω} {call : Call} {m : Machine β Ω} {o : Outcome β}

theorem finishes_of_exit (he : e.Tracked) (hm : e.admits (.advance id)) (hc : e.commits[id]? = some c)
    (hp : c.phase = .busy call (.running m)) (ho : m.outcome? = some o) (hn : o ≠ .retry)
    (hv : m.journal.isValid e.store) (hs : c.signals.state = .running) :
    finishes id (e, .advance id) := by
  obtain ⟨c', d, hmv, hd, h⟩ := moved hm hc (he.ne_nextCommit hc)
  have hs' : c'.signals.state = .done := by
    cases hmv with
    | keep hn => exact absurd rfl hn
    | turn hp' ht =>
      cases hp.symm.trans hp'
      generalize (e.act (.advance id)).store = s at ht
      cases ht with
      | conclude | publish => rfl
      | step ho' => cases ho.symm.trans ho'
      | refuse ho' | park ho' | rerun ho' => exact absurd (Option.some.inj (ho.symm.trans ho')) hn
      | discard _ _ hv' => cases hv.symm.trans hv'
      | lose _ _ _ hs' => exact absurd hs hs'
  have hdone := state?_eq hd h
  rw [hs'] at hdone
  have hrun := state?_eq .calm hc
  rw [hs] at hrun
  simp only [finishes, hrun, hdone]
  rfl

end Engine

section

variable {h : History β Ω} {e : Engine β Ω} {id : CommitId}

/-- Whatever a commit has halted with, other than the refusal of a poll that comes too late, the attempt has
come to that has finished it. -/
theorem Run.halted {c : Commit β Ω} {d : Defect} (r : Run h e) (hc : e.commits[id]? = some c)
    (hr : c.phase.result? = some (.error (.halt d))) :
    d = .message "commit polled after completion" ∨
      ∃ x ∈ h, ∃ b m o, Engine.Concludes id x b m o ∧ o.conform b.errorTy b.valueTy = .halt d := by
  refine r.each (P := fun h _ i c => c.phase.result? = some (.error (.halt d)) →
    d = .message "commit polled after completion" ∨
      ∃ x ∈ h, ∃ b m o, Engine.Concludes i x b m o ∧ o.conform b.errorTy b.valueTy = .halt d)
    ?_ ?_ (fun _ ih => ih) hc hr
  · intros
    contradiction
  · intro h e m i c c' r hm hc ih hmv hr
    have on (hr : c.phase.result? = some (.error (.halt d))) :
        d = .message "commit polled after completion" ∨ ∃ x ∈ (e, m) :: h, ∃ b m o,
          Engine.Concludes i x b m o ∧ o.conform b.errorTy b.valueTy = .halt d :=
      (ih hr).imp_right fun ⟨x, hx, hrest⟩ => ⟨x, List.mem_cons_of_mem _ hx, hrest⟩
    cases hmv with
    | keep | setFiber | setScheduler | setWatched | interrupt => exact on hr
    | poll | runSync | settle => cases hr
    | refuse =>
      cases hr
      exact .inl rfl
    | drop =>
      rw [Commit.drop_fst] at hr
      exact on hr
    | turn hp ht =>
      obtain hr | ⟨m, o, rfl, ho, hhalt, hv, hs⟩ := ht.halt_cases hp hr
      · exact on hr
      · have hn : o ≠ .retry := by
          rintro rfl
          cases hhalt
        have hf := Engine.finishes_of_exit r.tracked hm hc hp ho hn hv hs
        exact .inr ⟨_, List.mem_cons_self, c, m, o, ⟨hf, hc, by rw [hp]; rfl, ho⟩, hhalt⟩

theorem Run.halted_of_answer? {d : Defect} (r : Run h e)
    (ha : e.answer? id = some (.ready (.error (.halt d)))) :
    d = .message "commit polled after completion" ∨
      ∃ x ∈ h, ∃ c m o, Engine.Concludes id x c m o ∧ o.conform c.errorTy c.valueTy = .halt d := by
  cases hc : e.commits[id]? with
  | none => simp [Engine.answer?, hc] at ha
  | some c =>
    have hp := Engine.phase_of_answer? hc ha
    exact r.halted hc (by rw [hp]; rfl)

theorem Run.concludes (r : Run h e) {x : Engine β Ω × Move β Ω} (hx : x ∈ h)
    (hf : Engine.finishes id x) : ∃ c m o, Engine.Concludes id x c m o ∧
      ∀ d, (x.1.act x.2).store.version d = m.journal.version x.1.store d := by
  obtain ⟨⟨_, r'⟩, hm⟩ := r.of_mem hx
  obtain ⟨c, hc⟩ := Engine.exists_of_finishes r'.tracked hm hf
  obtain ⟨hturn, call, m, res, w, b, woken, hp, ht, hb⟩ :=
    Engine.turn_of_finishes r'.tracked hm hf hc
  obtain ⟨o, ho, -⟩ := ht.published hb
  refine ⟨c, m, o, ⟨hf, hc, by rw [hp]; rfl, ho⟩, fun d => ?_⟩
  rw [hturn]
  exact ht.version_of_published hb d

/-- The committer never fails at what it has decided on. An attempt that is found to have something to publish
can publish it, one that is not to be run again has a result, and nobody is ever told of a publication that
was refused. So a halt that is answered is the exit of the attempt that has finished the commit, unless it was
asked for after that, and the texts of the two refusals are answered only where the transaction itself has
halted with them. The move that finishes a commit publishes every write that waits in the journal of the
attempt and changes no other cell, and no commit is done without such a move. -/
theorem Run.settled_for_good (r : Run h e) (id : CommitId) :
    (∀ c m o, e.commits[id]? = some c → c.phase.attempt? = some m → m.outcome? = some o →
      (m.journal.analyze e.store = .readWrite → ∃ w s k, m.journal.publish e.store = .ok (w, s, k)) ∧
      (o ≠ .retry → ∃ res, (o.conform c.errorTy c.valueTy).result? = some res)) ∧
    (∀ f why, (e.advance id).2 ≠ some (.publicationFailed f why)) ∧
    (∀ d, e.answer? id = some (.ready (.error (.halt d))) →
      d = .message "commit polled after completion" ∨
        ∃ x ∈ h, ∃ c m o, Engine.Concludes id x c m o ∧ o.conform c.errorTy c.valueTy = .halt d) ∧
    (∀ t, t = Refusal.invalidJournal.message ∨ t = "retry reached the committer" →
      e.answer? id = some (.ready (.error (.halt (.message t)))) →
        ∃ x ∈ h, ∃ c m, Engine.Concludes id x c m (.halt (.message t))) ∧
    (∀ x ∈ h, Engine.finishes id x → ∃ c m o, Engine.Concludes id x c m o ∧
      ∀ d, (x.1.act x.2).store.version d = m.journal.version x.1.store d) ∧
    (e.state? id = some .done → ∃ x ∈ h, Engine.finishes id x) := by
  refine ⟨fun c m o hc hm ho => ⟨Journal.publish_of_readWrite, fun hn => ?_⟩, fun f why => ?_,
    fun d => r.halted_of_answer?, fun t ht ha => ?_, fun x => r.concludes, fun hs => ?_⟩
  · rw [← Option.isSome_iff_exists, Option.isSome_iff_ne_none, ne_eq, Exit.result?_eq_none,
      Exit.conform_eq_retry]
    exact hn
  · unfold Engine.advance
    cases e.commits[id]? with
    | none => rintro ⟨⟩
    | some c =>
      cases hp : c.phase with
      | busy call p =>
        simp only [hp]
        exact Commit.notice_run
      | idle | answered =>
        simp only [hp]
        rintro ⟨⟩
  · obtain h | ⟨x, hx, c, m, o, hcon, ho⟩ := r.halted_of_answer? ha
    · cases h
      exact absurd ht (by decide)
    · cases Exit.eq_halt_message_of_conform ho
      exact ⟨x, hx, c, m, hcon⟩
  · have hf := (r.countP id).2
    rw [if_pos hs] at hf
    exact List.countP_pos_iff.1 (by omega)

end

def refusing : Tx Unit (.unit : Ty Scenario.Base) .never .nat :=
  ((⟨⟨1⟩⟩ : Ref (.nat : Ty Scenario.Base)).set (7 : Nat)).bind fun _ =>
    pure (.haltMessage Refusal.invalidJournal.message)

/-- Another commit publishes the cell while it is run, so that its first attempt does come to a stale
journal. -/
def refusedOnce : List (Move Scenario.Base Unit) :=
  let turns n i := List.replicate n (Move.advance ⟨i⟩)
  [.alloc ⟨.nat, (3 : Nat)⟩, .commit refusing.tree .never .nat none,
    .commit increment .never .nat none, .poll ⟨1⟩ .thread] ++ turns 5 1 ++
  [.runSync ⟨2⟩] ++ turns 6 2 ++ turns 12 1

theorem settled_for_good_refusedOnce :
    let p := Engine.play { world := () } [] refusedOnce
    let text := Refusal.invalidJournal.message
    p.2.answer? ⟨1⟩ = some (.ready (.error (.halt (.message text)))) ∧ p.2.state? ⟨1⟩ = some .done ∧
      (∃ x ∈ p.1, ∃ c m, Engine.Concludes ⟨1⟩ x c m (.halt (.message text))) ∧
      ∃ x ∈ p.1, Engine.finishes ⟨1⟩ x := by
  intro p text
  have r : Run p.1 p.2 := (Run.start ()).play (by decide +kernel)
  have ha : p.2.answer? ⟨1⟩ = some (.ready (.error (.halt (.message text)))) := by
    with_unfolding_all rfl
  have hs : p.2.state? ⟨1⟩ = some .done := by decide +kernel
  obtain ⟨-, -, -, halted, -, done⟩ := r.settled_for_good ⟨1⟩
  exact ⟨ha, hs, halted text (.inl rfl) ha, done hs⟩

end TransactionalMemory
