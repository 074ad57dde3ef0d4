import TransactionalMemory.Proofs.Combinators
import TransactionalMemory.Proofs.Pool
import TransactionalMemory.Proofs.Settlement

namespace TransactionalMemory

variable {β : Type} [Universe β] {Ω : Type} {H : Charter β Ω}

namespace Store

variable {s t : Store β} {c : CellId} {T : Ty β}

def typing (H : Charter β Ω) (s : Store β) : Typing H :=
  ⟨⟨fun c => (s.cells[c]?).map fun x => x.version.value.ty⟩⟩

theorem made_typing_iff : (s.typing H).made c = some T ↔ c ∈ s.cells ∧ (s.value c).ty = T := by
  simp only [typing, Option.map_eq_some_iff, value, version, cell]
  cases hc : s.cells[c]? with
  | none => simp [Std.ExtTreeMap.mem_iff_isSome_getElem?, hc]
  | some x => simp [Std.ExtTreeMap.mem_iff_isSome_getElem?, hc]

theorem typing_congr (h : ∀ c, c ∈ t.cells ↔ c ∈ s.cells)
    (hv : ∀ c ∈ s.cells, (t.value c).ty = (s.value c).ty) : t.typing H = s.typing H := by
  apply Typing.ext
  funext c
  apply Option.ext
  intro T
  rw [made_typing_iff, made_typing_iff, h c]
  exact and_congr_right fun hc => by rw [hv c hc]

theorem typing_alloc (v : Any β) : (s.alloc v).2.typing H = (s.typing H).declare s.nextCell v.ty := by
  apply Typing.ext
  funext c
  simp only [typing, Typing.declare, alloc, Std.ExtTreeMap.getElem?_insert, Std.LawfulEqOrd.compare_eq_iff_eq,
    eq_comm (a := c)]
  split <;> rfl

theorem typing_step {m : Machine β Ω} {f : FiberId} {ω : Ω} :
    (m.step f s ω).2.1.typing H = (s.typing H).after m s := by
  obtain ⟨focus, env, fs, j⟩ := m
  cases focus with
  | exit => rfl
  | run t =>
    cases t with
    | make v => exact typing_alloc v
    | provide t g =>
      simp only [Machine.step, Machine.enter]
      split <;> rfl
    | effect | touch | crash | once | onSuccess | onSuccessOnce | onFailure | onRetry | orElse | loop => rfl

def WellTyped (H : Charter β Ω) (s : Store β) : Prop := s.Respects (s.typing H)

structure Grows (H : Charter β Ω) (s t : Store β) : Prop where
  le : s.typing H ≤ t.typing H
  wellTyped : t.WellTyped H

theorem WellTyped.grows_of_same (h : s.WellTyped H) (l : s.SameVersions t) : Grows H s t := by
  have hv (c : CellId) : t.value c = s.value c := by rw [value, value, l.version c]
  have ht : t.typing H = s.typing H := typing_congr l.cells fun c _ => by rw [hv]
  refine ⟨le_of_eq ht.symm, ?_⟩
  rw [WellTyped, ht]
  refine ⟨fun c T hc => ?_, fun c T hc => ?_⟩
  · rw [l.nextCell]
    exact h.made c T hc
  · rw [hv]
    exact h.value c T hc

theorem WellTyped.grows_alloc (h : s.WellTyped H) {v : Any β} (hv : (s.typing H).Has v.ty v) :
    Grows H s (s.alloc v).2 := by
  refine ⟨?_, ?_⟩
  · rw [typing_alloc]
    exact Typing.le_declare h.nextCell
  · rw [WellTyped, typing_alloc]
    exact h.alloc hv

theorem WellTyped.grows_publish (h : s.WellTyped H) {j k : Journal β} {w : Waiting}
    (hj : j.Respects (s.typing H)) (hk : j.Known s) (hp : j.publish s = .ok (w, t, k)) : Grows H s t := by
  have hr : t.Respects (s.typing H) := hj.publish h hp
  have ht : t.typing H = s.typing H := by
    refine typing_congr (fun c => Journal.mem_publish hp hk) fun c hc => ?_
    exact (hr.value c _ (made_typing_iff.2 ⟨hc, rfl⟩)).ty
  exact ⟨le_of_eq ht.symm, by rwa [WellTyped, ht]⟩

end Store

namespace Commit

structure WellTyped (Γ : Typing H) (c : Commit β Ω) : Prop where
  tree : ∀ Δ, Γ ≤ Δ → c.tree.Typed Δ .unit c.errorTy c.valueTy
  attempt : ∀ m, c.phase.attempt? = some m → ∀ Δ, Γ ≤ Δ → m.Typed Δ c.errorTy c.valueTy

variable {Γ Δ : Typing H} {c c' : Commit β Ω} {id : CommitId} {s s' : Store β} {ω : Ω} {call : Call}
  {p : Point β Ω} {woken : List CommitId}

theorem WellTyped.mono (h : c.WellTyped Γ) (hle : Γ ≤ Δ) : c.WellTyped Δ where
  tree Θ hΘ := h.tree Θ (le_trans hle hΘ)
  attempt m hm Θ hΘ := h.attempt m hm Θ (le_trans hle hΘ)

theorem Transition.grows (h : c.Transition id s ω call p c' s' woken) (hp : c.phase = .busy call p)
    (hk : c.Known s) (hs : s.WellTyped H) (hω : H.world (s.typing H).toLayout ω)
    (hc : c.WellTyped (s.typing H)) : s.Grows H s' := by
  have hrun {m : Machine β Ω} (e : p = .running m) : m.Typed (s.typing H) c.errorTy c.valueTy :=
    hc.attempt m (by rw [hp, e]; rfl) _ (le_refl _)
  cases h with
  | stop | stall | resume | sleep | begin | giveUp | attempt | launch | rerun | discard | lose | conclude
  | skip | tell | wake | rest | stir => exact ⟨le_refl _, hs⟩
  | leave => exact hs.grows_of_same (hk.sameVersions_finish call _)
  | finish => exact hs.grows_of_same (hk.sameVersions_finish call _)
  | refuse => exact hs.grows_of_same hk.sameVersions_drop
  | @park w m ho hv => exact hs.grows_of_same (hk.sameVersions_follow (hk.2 m.journal (by rw [hp]; rfl)))
  | @step _ m ho =>
    have hstep := (hrun rfl).respects_step (x := ⟨s, ω⟩) (f := c.fiber) ⟨hs, hω⟩
    refine ⟨?_, ?_⟩
    · rw [Store.typing_step]
      exact Typing.le_after hs
    · rw [Store.WellTyped, Store.typing_step]
      exact hstep.store
  | @publish _ m _ _ _ _ _ ho hr hw hst hpub =>
    exact hs.grows_publish (hrun rfl).respects (hk.2 m.journal (by rw [hp]; rfl)) hpub

theorem Transition.wellTyped (h : c.Transition id s ω call p c' s' woken) (hp : c.phase = .busy call p)
    (hk : c.Known s) (hs : s.WellTyped H) (hω : H.world (s.typing H).toLayout ω)
    (hc : c.WellTyped (s.typing H)) : c'.WellTyped (s'.typing H) := by
  have hg := h.grows hp hk hs hω hc
  have htree := (hc.mono hg.le).tree
  cases h with
  | stop | resume | sleep | begin | giveUp | attempt | park | rerun | discard | lose | conclude | publish
  | skip | tell | wake | rest | stir => exact ⟨htree, nofun⟩
  | stall => exact ⟨htree, hc.attempt⟩
  | leave | finish =>
    rw [finish_fst]
    exact ⟨htree, nofun⟩
  | refuse =>
    rw [drop_fst]
    exact ⟨htree, nofun⟩
  | launch =>
    refine ⟨htree, ?_⟩
    rintro m ⟨⟩ Δ hΔ
    exact .run .nil (htree Δ hΔ) Typing.has_unit Journal.respects_empty
  | @step _ m ho =>
    refine ⟨htree, ?_⟩
    rintro n ⟨⟩ Δ hΔ
    -- The cell that is made has its type in the typing of the new store, and so in every larger one.
    have hm := hc.attempt m (by rw [hp]; rfl)
    rw [Store.typing_step] at hΔ
    have hle : s.typing H ≤ Δ := le_trans (Typing.le_after hs) hΔ
    exact (hm Δ hle).step (H.world_mono hle hω) ((hm _ (le_refl _)).meets hs hΔ)

end Commit

namespace Engine

variable {e : Engine β Ω} {m : Move β Ω}

/-- What is added, and the surroundings, are as the charter has it. -/
def Suits (H : Charter β Ω) (e : Engine β Ω) (m : Move β Ω) : Prop :=
  H.world (e.store.typing H).toLayout e.world ∧
    match m with
    | .alloc v => (e.store.typing H).Has v.ty v
    | .commit t E A _ => ∃ u : Tx Ω .unit E A, u.tree = t ∧ ∀ Γ, e.store.typing H ≤ Γ → u.Built Γ
    | _ => True

structure WellTyped (H : Charter β Ω) (e : Engine β Ω) : Prop where
  cells : e.store.WellTyped H
  commits : ∀ (i : CommitId) (c : Commit β Ω), e.commits[i]? = some c → c.WellTyped (e.store.typing H)

theorem WellTyped.grows (h : e.WellTyped H) (he : e.Tracked) (ha : e.admits m) (hm : e.Suits H m) :
    e.store.Grows H (e.act m).store := by
  have hr : Reshaped e m (e.act m).store := reshaped ha
  generalize (e.act m).store = t at hr
  cases hr with
  | keep => exact ⟨le_refl _, h.cells⟩
  | alloc => exact h.cells.grows_alloc hm.2
  | drop hc => exact h.cells.grows_of_same (he.known _ _ hc).sameVersions_drop
  | turn hc hp ht => exact ht.grows hp (he.known _ _ hc) h.cells hm.1 (h.commits _ _ hc)

theorem WellTyped.act (h : e.WellTyped H) (he : e.Tracked) (ha : e.admits m) (hm : e.Suits H m) :
    (e.act m).WellTyped H where
  cells := (h.grows he ha hm).wellTyped
  commits := by
    intro i d hd
    have hle := (h.grows he ha hm).le
    cases hc : e.commits[i]? with
    | none =>
      obtain ⟨t, E, A, s, rfl, rfl, rfl⟩ := fresh_of_act ha hc hd
      obtain ⟨u, rfl, hu⟩ := hm.2
      exact ⟨fun Γ hΓ => (hu Γ (le_trans hle hΓ)).typed, nofun⟩
    | some c =>
      obtain ⟨c', b, hmv, hb, hc'⟩ := moved ha hc (he.ne_nextCommit hc)
      obtain rfl : d = b := Option.some.inj (hd.symm.trans hc')
      have hw := (h.commits i c hc).mono hle
      have hw' : c'.WellTyped ((e.act m).store.typing H) := by
        cases hmv with
        | keep | setFiber | setScheduler | setWatched | interrupt => exact ⟨hw.tree, hw.attempt⟩
        | poll | refuse | runSync | settle => exact ⟨hw.tree, nofun⟩
        | drop =>
          rw [Commit.drop_fst]
          exact ⟨hw.tree, hw.attempt⟩
        | turn hp ht => exact ht.wellTyped hp (he.known _ _ hc) h.cells hm.1 (h.commits _ _ hc)
      obtain ⟨g, rfl, -⟩ := hb.frame
      exact ⟨hw'.tree, hw'.attempt⟩

end Engine

section

variable {h : History β Ω} {e : Engine β Ω} {i : CommitId} {c : Commit β Ω}

theorem Run.wellTyped (r : Run h e) (hs : ∀ x ∈ h, x.1.Suits H x.2) : e.WellTyped H := by
  induction r with
  | start ω =>
    refine ⟨⟨?_, ?_⟩, ?_⟩
    · intro c T hc
      simp [Store.made_typing_iff] at hc
    · intro c T hc
      simp [Store.made_typing_iff] at hc
    · intro i c hc
      simp at hc
  | next r ha ih =>
    obtain ⟨hm, hs⟩ := List.forall_mem_cons.1 hs
    exact (ih hs).act r.tracked ha hm

theorem Run.reusable (r : Run h e) (hs : ∀ x ∈ h, x.1.Suits H x.2) (hc : e.commits[i]? = some c) :
    c.tree.Reusable := by
  refine r.each (P := fun h _ _ c => (∀ x ∈ h, x.1.Suits H x.2) → c.tree.Reusable) ?_ ?_ (fun _ h => h) hc hs
  · intro h e t E A f s _ hs
    obtain ⟨u, rfl, hu⟩ := (hs _ (.head _)).2
    exact (hu _ (le_refl _)).reusable
  · intro h e x i c c' _ _ _ ih hmv hs
    rw [hmv.frame.1]
    exact ih fun y hy => hs y (.tail _ hy)

theorem Run.answers_as_typed (r : Run h e) (hs : ∀ x ∈ h, x.1.Suits H x.2) {n : String}
    (ha : e.answer? i = some (.ready (.error (.halt (.typeMismatch n))))) : H.halts n := by
  obtain h | ⟨x, hx, c, m, o, hcon, ho⟩ := r.halted_of_answer? ha
  · cases h
  · obtain ⟨h₁, h₂, rfl⟩ := List.append_of_mem hx
    have hw : x.1.WellTyped H := r.before.1.wellTyped fun y hy => hs y (by simp [hy])
    have hm : m.Typed (x.1.store.typing H) c.errorTy c.valueTy :=
      (hw.commits _ _ hcon.commit).attempt m hcon.attempt _ (le_refl _)
    have hc := hm.comes hcon.exit
    rw [hc.conform] at ho
    subst ho
    exact hc n rfl

end

section

variable {Γ Δ : Typing H} {R E A : Ty β} {t : Tx Ω R E A} {env : Any β} {j : Journal β} {m : Machine β Ω}

/-- A transaction that is built at types that fit together, however many cells are made, is run in an
environment of its type over a journal and cells that hold values of theirs. Then every continuation and
handler, every look at an environment or at a cell, every write and whoever is told the exit finds the type it
asks for. The run ends with no mismatch but those that the transaction reports itself, and others find things
as it has found them. An engine that is given nothing but such transactions stays well typed, and answers none
of their commits with a mismatch but those. Every attempt goes as an interpreter does it, for which a value or a
continuation may be there once. -/
theorem Tx.finds_what_it_asks (ht : ∀ Θ, Γ ≤ Θ → t.Built Θ) (henv : Γ.Has R env) (hj : j.Respects Γ)
    (hm : Γ.Leads { focus := .run t.tree, env, journal := j } Δ m) :
    (∀ (Θ : Typing H) (x : Scene β Ω), Δ ≤ Θ → x.Respects Θ → m.Finds Θ x.store E A ∧ m.Keeps Θ x) ∧
      (∀ o, m.outcome? = some o → o.conform E A = o ∧ ∀ n, o = .halt (.typeMismatch n) → H.halts n) ∧
      ∀ (h : History β Ω) (e : Engine β Ω), Run h e → (∀ x ∈ h, x.1.Suits H x.2) → e.WellTyped H ∧
        (∀ i n, e.answer? i = some (.ready (.error (.halt (.typeMismatch n)))) → H.halts n) ∧
        ∀ (i : CommitId) (c : Commit β Ω) (m : Machine β Ω),
          e.commits[i]? = some c → c.phase.attempt? = some m →
          h.pool.Reached ∧ h.pool.Carries i.number c.tree c.fiber m := by
  have htyped {Θ : Typing H} (hΘ : Δ ≤ Θ) : m.Typed Θ E A :=
    Machine.typed_of_leads hm (Tx.typed_run ht henv hj) hΘ
  refine ⟨fun Θ x hΘ hx => ⟨(htyped hΘ).finds hx.store, (htyped hΘ).keeps hx⟩, fun o ho => ?_,
    fun h e r hs => ⟨r.wellTyped hs, fun i n => r.answers_as_typed hs,
      fun i c m hc hm => ⟨h.reached_pool, r.interpreted hc (r.reusable hs hc) hm⟩⟩⟩
  have hc : Δ.Comes E A o := (htyped (le_refl Δ)).comes ho
  refine ⟨hc.conform, ?_⟩
  rintro n rfl
  exact hc n rfl

end

def fallback : Tx Unit (.nat : Ty Scenario.Base) .unit .nat :=
  (Ref.make (3 : Nat) : Tx Unit .nat .unit (.ref .nat)).bind fun r =>
    let found : Tx Unit .nat .unit .nat := r.get.bind fun (n : Nat) =>
      pure (if n < 5 then .fail (show Unit from ()) else .succeed (show Nat from n))
    pure (found.recover fun _ => pure .environment)

def Charter.plain : Charter Scenario.Base Unit where
  base _ _ _ := True
  world _ _ := True
  halts _ := False
  base_mono _ := id
  world_mono _ := id

theorem built_fallback (Θ : Typing Charter.plain) : fallback.Built Θ := by
  refine .bind (.makeRef (A := .nat) trivial) fun r hr => Typing.yields_pure (.recover ?_ fun _ _ => ?_)
  · refine .bind (.getRef hr) fun n _ => Typing.yields_pure ?_
    split
    · exact .fail (E := .unit) trivial
    · exact .succeed (A := .nat) trivial
  · exact Typing.yields_pure (.asks fun n _ => Typing.yields_pure trivial)

def fallingBack : List (Move Scenario.Base Unit) :=
  let provided : Tx Unit (.unit : Ty Scenario.Base) .unit .nat := fallback.provide (7 : Nat)
  [.commit provided.tree .unit .nat none, .poll ⟨1⟩ .thread] ++ List.replicate 18 (.advance ⟨1⟩)

theorem finds_what_it_asks_fallback :
    let Γ : Typing Charter.plain := ⟨⟨fun _ => none⟩⟩
    let env : Any Scenario.Base := ⟨.nat, (7 : Nat)⟩
    let p := Engine.play { world := () } [] fallingBack
    (∀ Θ, Γ ≤ Θ → fallback.Built Θ) ∧ Γ.Has .nat env ∧ Journal.Respects {} Γ ∧
      ∃ Δ m, Γ.Leads { focus := .run fallback.tree, env } Δ m ∧ m.outcome? = some (.success env) ∧
        (∀ (Θ : Typing Charter.plain) (x : Scene Scenario.Base Unit), Δ ≤ Θ → x.Respects Θ →
          m.Finds Θ x.store .unit .nat ∧ m.Keeps Θ x) ∧
        (Exit.success env : Outcome Scenario.Base).conform .unit .nat = .success env ∧
        (∀ x ∈ p.1, x.1.Suits Charter.plain x.2) ∧ p.2.answer? ⟨1⟩ = some (.ready (.ok env)) ∧
        p.2.WellTyped Charter.plain := by
  intro Γ env p
  have ht (Θ : Typing Charter.plain) (_ : Γ ≤ Θ) : fallback.Built Θ := built_fallback Θ
  have henv : Γ.Has .nat env := ⟨_, rfl, trivial⟩
  have hx : Scene.Respects ⟨{}, ()⟩ Γ := ⟨⟨nofun, nofun⟩, trivial⟩
  obtain ⟨Δ, m, y, hm, -, e⟩ := Machine.leads_alone (f := ⟨1⟩)
    (Tx.typed_run ht henv Journal.respects_empty) hx 10
  have ho : m.outcome? = some (.success env) := by
    rw [← congrArg (fun p => p.1.outcome?) e]
    with_unfolding_all rfl
  have r : Run p.1 p.2 := (Run.start ()).play (by decide +kernel)
  have ha : p.2.answer? ⟨1⟩ = some (.ready (.ok env)) := by
    with_unfolding_all rfl
  have hs : ∀ x ∈ p.1, x.1.Suits Charter.plain x.2 := by
    intro x hx
    obtain ⟨e, k⟩ := x
    obtain hk | hk := List.mem_append.1 (Engine.mem_of_mem_play hx)
    · obtain rfl | hk := List.mem_cons.1 hk
      · exact ⟨trivial, _, rfl, fun Θ _ => .provide (built_fallback Θ) trivial⟩
      · rw [List.mem_singleton.1 hk]
        exact ⟨trivial, trivial⟩
    · rw [List.eq_of_mem_replicate hk]
      exact ⟨trivial, trivial⟩
  obtain ⟨hfinds, hexit, hengine⟩ := Tx.finds_what_it_asks ht henv Journal.respects_empty hm
  exact ⟨ht, henv, Journal.respects_empty, Δ, m, hm, ho, hfinds, (hexit _ ho).1, hs, ha, (hengine _ _ r hs).1⟩

end TransactionalMemory
