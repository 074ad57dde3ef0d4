import Mathlib.Logic.Function.Iterate
import TransactionalMemory.Proofs.Typing

/-! The machine on well-typed trees. What it hands to a frame, finds in a cell, or has for an environment is of
the type that is asked for there, so no outcome of its own is a mismatch. -/

namespace TransactionalMemory

variable {β : Type} [Universe β] {Ω : Type} {α : Type}

/-- The code looks at an untyped value by asking for a `T`, and says `no` to a value of another type. Or it does
not look. -/
def Asks (T : Ty β) (no : α) (k : Any β → α) : Prop :=
  (∃ yes : T.El → α, k = fun v => (v.as T).elim no yes) ∨ ∃ c, k = fun _ => c

variable {H : Charter β Ω}

/-- The tree, run in an environment of type `R`, fails with an `E` and succeeds with an `A`, and asks for nothing
that is not there. -/
inductive Tree.Typed (Γ : Typing H) : Ty β → Ty β → Ty β → Tree β Ω → Prop
  | effect {g : Ω → FiberId → Any β → Except Panic (Outcome β) × Ω} :
    (∀ ω f, Asks R (.ok (mismatch R), ω) (g ω f)) →
    (∀ ω f env, H.world Γ.toLayout ω → Γ.Has R env →
      (∀ o, (g ω f env).1 = .ok o → Γ.Comes E A o) ∧ H.world Γ.toLayout (g ω f env).2) →
    Typed Γ R E A (.effect g)
  | touch {g : Any β → Code Ω (Access β)} :
    Γ.made c = some T → Asks T (pure (.leave (mismatch T))) g →
    (∀ v, Γ.Has T v → Γ.Yields (Γ.Does T E A) (g v)) → Typed Γ R E A (.touch c g)
  | make : Γ.Has v.ty v → (∀ c, Γ.made c = some v.ty → Γ.Has A (answer c)) → Typed Γ R E A (.make v answer)
  | crash : Typed Γ R E A (.crash p)
  | once : Γ.Has A v → Typed Γ R E A (.once v)
  | onSuccess : Typed Γ R E A t → (∀ ω, Asks A (.done (mismatch A)) (k ω)) →
    (∀ ω v, H.world Γ.toLayout ω → Γ.Has A v → Typed Γ R E A' (k ω v)) → Typed Γ R E A' (.onSuccess t k)
  | onSuccessOnce : Typed Γ R E A (.onSuccess t k) → Typed Γ R E A (.onSuccessOnce t k)
  | onFailure : Typed Γ R E A t → (∀ ω, Asks E (.done (mismatch E)) (k ω)) →
    (∀ ω v, H.world Γ.toLayout ω → Γ.Has E v → Typed Γ R E' A (k ω v)) → Typed Γ R E' A (.onFailure t k)
  | onRetry : Typed Γ R E A t → (∀ ω, H.world Γ.toLayout ω → Typed Γ R E A (k ω)) →
    Typed Γ R E A (.onRetry t k)
  | orElse : Typed Γ R E A l → Typed Γ R E A r → Typed Γ R E A (.orElse l r)
  | provide {g : Any β → Code Ω (Except Defect (Any β))} :
    Typed Γ R' E A t → Asks R (pure (.error (.typeMismatch R.name))) g →
    (∀ env, Γ.Has R env → Γ.Yields (∃ env', · = .ok env' ∧ Γ.Has R' env') (g env)) →
    Typed Γ R E A (.provide t g)
  | loop {judge : Any β → Code Ω (Option (Outcome β))} :
    Typed Γ R E A t → Asks A (pure (some (mismatch A))) judge →
    (∀ v, Γ.Has A v → Γ.Yields (∀ o, · = some o → Γ.Comes E A o) (judge v)) → Typed Γ R E A (.loop t judge)

/-- The frames take the outcomes of a tree that is typed with `R`, `E` and `A`, and hand on outcomes with `E₀`
and `A₀` in the end. -/
inductive Frame.Stacked (Γ : Typing H) (E₀ A₀ : Ty β) : Ty β → Ty β → Ty β → List (Frame β Ω) → Prop
  | nil : Stacked Γ E₀ A₀ R E₀ A₀ []
  | onSuccess : (∀ ω, Asks A (.done (mismatch A)) (k ω)) →
    (∀ ω v, H.world Γ.toLayout ω → Γ.Has A v → (k ω v).Typed Γ R E A') →
    Stacked Γ E₀ A₀ R E A' fs → Stacked Γ E₀ A₀ R E A (.onSuccess k :: fs)
  | onFailure : (∀ ω, Asks E (.done (mismatch E)) (k ω)) →
    (∀ ω v, H.world Γ.toLayout ω → Γ.Has E v → (k ω v).Typed Γ R E' A) →
    Stacked Γ E₀ A₀ R E' A fs → Stacked Γ E₀ A₀ R E A (.onFailure k :: fs)
  | onRetry : (∀ ω, H.world Γ.toLayout ω → (k ω).Typed Γ R E A) →
    Stacked Γ E₀ A₀ R E A fs → Stacked Γ E₀ A₀ R E A (.onRetry k :: fs)
  | orElse : Checkpoint.Respects saved Γ → r.Typed Γ R E A →
    Stacked Γ E₀ A₀ R E A fs → Stacked Γ E₀ A₀ R E A (.orElse saved r :: fs)
  | restore : Γ.Has R env → Stacked Γ E₀ A₀ R E A fs → Stacked Γ E₀ A₀ R' E A (.restore env :: fs)

section

variable {Γ : Typing H} {R E A T : Ty β} {t : Tree β Ω} {judge : Any β → Code Ω (Option (Outcome β))}

theorem asks_of_none {no : α} {k : Any β → α} (h : ∀ v, v.as T = none → k v = no) : Asks T no k := by
  refine .inl ⟨fun a => k ⟨T, a⟩, funext fun v => ?_⟩
  cases hv : v.as T with
  | none => exact h v hv
  | some a =>
    obtain rfl := Any.as_eq_some hv
    rfl

namespace Tree

theorem typed_effect {g : Ω → FiberId → Except Panic (Outcome β) × Ω}
    (hg : ∀ ω f, H.world Γ.toLayout ω →
      (∀ o, (g ω f).1 = .ok o → Γ.Comes E A o) ∧ H.world Γ.toLayout (g ω f).2) :
    (Tree.effect fun ω f _ => g ω f).Typed Γ R E A :=
  .effect (fun ω f => .inr ⟨g ω f, rfl⟩) fun ω f _ hω _ => hg ω f hω

theorem typed_done {o : Outcome β} (h : Γ.Comes E A o) : (Tree.done o : Tree β Ω).Typed Γ R E A := by
  refine typed_effect fun ω f hω => ⟨?_, hω⟩
  rintro _ ⟨⟩
  exact h

theorem asks_again (h : Asks A (pure (some (mismatch A))) judge) (ω : Ω) :
    Asks A (.done (mismatch A)) (t.again judge ω) := by
  obtain ⟨yes, rfl⟩ | ⟨c, rfl⟩ := h
  · refine asks_of_none fun v hv => ?_
    simp only [again, hv]
    rfl
  · exact .inr ⟨t.again (fun _ => c) ω .unit, rfl⟩

theorem Typed.again (ht : (t.loop judge).Typed Γ R E A) {ω : Ω} {v : Any β} (hω : H.world Γ.toLayout ω)
    (hv : Γ.Has A v) : (t.again judge ω v).Typed Γ R E A := by
  cases ht with
  | loop ht hask hjudge =>
    unfold Tree.again
    split
    · exact .loop ht hask hjudge
    · rename_i w hr
      exact .once (hjudge v hv ω hω _ hr _ rfl)
    · rename_i o _ hr
      exact typed_done (hjudge v hv ω hω _ hr o rfl)
    · exact .crash

end Tree

end

namespace Machine

/-- What is in focus fits the environment and the frames, and the journal the cells. -/
inductive Typed (Γ : Typing H) (E₀ A₀ : Ty β) : Machine β Ω → Prop
  | run {t : Tree β Ω} {env : Any β} : Frame.Stacked Γ E₀ A₀ R E A fs → t.Typed Γ R E A → Γ.Has R env →
    j.Respects Γ → Typed Γ E₀ A₀ ⟨.run t, env, fs, j⟩
  | exit {env : Any β} : Frame.Stacked Γ E₀ A₀ R E A fs → Γ.Comes E A o → Γ.Has R env → j.Respects Γ →
    Typed Γ E₀ A₀ ⟨.exit o, env, fs, j⟩

def Meets (m : Machine β Ω) (s : Store β) (Γ : Typing H) : Prop :=
  match m.focus with
  | .run (.touch c _) => ∀ T, Γ.made c = some T → (m.journal.entry s c).Fits Γ T
  | .run (.make v _) => Γ.made s.nextCell = some v.ty
  | _ => True

variable {Γ Δ : Typing H} {R E E₀ A A₀ : Ty β} {m : Machine β Ω} {f : FiberId} {s : Store β} {ω : Ω}
  {env : Any β} {fs : List (Frame β Ω)} {j : Journal β} {t : Tree β Ω} {o : Outcome β}

theorem Typed.enter (hfs : Frame.Stacked Γ E₀ A₀ R E A fs) (ht : t.Typed Γ R E A) (henv : Γ.Has R env)
    (hj : j.Respects Γ) (hω : H.world Γ.toLayout ω) (hs : Meets ⟨.run t, env, fs, j⟩ s Γ) :
    Typed Γ E₀ A₀ (Machine.enter ⟨.run t, env, fs, j⟩ f s ω t).1 := by
  cases ht with
  | effect _ hg => exact .exit hfs (Typing.comes_caught (hg ω f env hω henv).1) henv hj
  | @touch c T _ _ _ g hc _ hg =>
    have he : (j.entry s c).Fits Γ T := hs T hc
    obtain ⟨ho, hj'⟩ := hj.touch (g := fun v => g v ω) hc he fun a ha => hg _ he.current ω hω a ha
    exact .exit hfs ho henv hj'
  | make hv ha => exact .exit hfs (ha _ hs) henv (hj.insertNew hs hv)
  | crash => exact .exit hfs (Charter.owns_panic _) henv hj
  | once hv => exact .exit hfs hv henv hj
  | onSuccess ht hk hkt => exact .run (.onSuccess hk hkt hfs) ht henv hj
  | onSuccessOnce h =>
    cases h with
    | onSuccess ht hk hkt => exact .run (.onSuccess hk hkt hfs) ht henv hj
  | onFailure ht hk hkt => exact .run (.onFailure hk hkt hfs) ht henv hj
  | onRetry ht hkt => exact .run (.onRetry hkt hfs) ht henv hj
  | orElse hl hr => exact .run (.orElse hj.checkpoint hr hfs) hl henv hj
  | loop ht hk hkt =>
    exact .run (.onSuccess (Tree.asks_again hk) (fun _ _ => (Tree.Typed.loop ht hk hkt).again) hfs) ht henv hj
  | @provide _ _ _ _ _ g ht _ hg =>
    simp only [Machine.enter]
    cases hr : g env ω with
    | error p => exact .exit hfs (Charter.owns_panic p) henv hj
    | ok r =>
      obtain ⟨env', rfl, henv'⟩ := hg env henv ω hω r hr
      exact .run (.restore henv hfs) ht henv' hj

theorem Typed.unwind (hfs : Frame.Stacked Γ E₀ A₀ R E A fs) (ho : Γ.Comes E A o) (henv : Γ.Has R env)
    (hj : j.Respects Γ) (hω : H.world Γ.toLayout ω) :
    Typed Γ E₀ A₀ (Machine.unwind ⟨.exit o, env, fs, j⟩ ω o fs) := by
  cases hfs with
  | nil => cases o <;> exact .exit .nil ho henv hj
  | onSuccess _ hk hrest =>
    cases o with
    | success v => exact .run hrest (hk ω v hω ho) henv hj
    | failure | halt | interrupt | retry => exact .exit hrest ho henv hj
  | onFailure _ hk hrest =>
    cases o with
    | failure v => exact .run hrest (hk ω v hω ho) henv hj
    | success | halt | interrupt | retry => exact .exit hrest ho henv hj
  | onRetry hk hrest =>
    cases o with
    | retry => exact .run hrest (hk ω hω) henv hj
    | success | failure | halt | interrupt => exact .exit hrest ho henv hj
  | orElse hsaved hr hrest =>
    cases o with
    | retry => exact .run hrest hr henv (hj.rollback hsaved)
    | success | failure | halt | interrupt => exact .exit hrest ho henv hj
  | restore henv' hrest => cases o <;> exact .exit hrest ho henv' hj

theorem Typed.step (h : m.Typed Γ E₀ A₀) (hω : H.world Γ.toLayout ω) (hs : m.Meets s Γ) :
    (m.step f s ω).1.Typed Γ E₀ A₀ := by
  cases h with
  | run hfs ht henv hj => exact .enter hfs ht henv hj hω hs
  | exit hfs ho henv hj => exact .unwind hfs ho henv hj hω

end Machine

/-! ### Runs -/

namespace Typing

def after (Γ : Typing H) (m : Machine β Ω) (s : Store β) : Typing H :=
  match m.focus with
  | .run (.make v _) => Γ.declare s.nextCell v.ty
  | _ => Γ

/-- The machine makes steps. Between any two of them, others may have made cells and changed what there is, as
long as cells hold values of the types they have been made for. -/
inductive Leads : Typing H → Machine β Ω → Typing H → Machine β Ω → Prop
  | refl : Leads Γ m Γ m
  | step (f : FiberId) (x : Scene β Ω) : Leads Γ m Δ n → Δ ≤ Δ' → x.Respects Δ' →
    Leads Γ m (Δ'.after n x.store) (n.step f x.store x.world).1

variable {Γ Δ : Typing H} {E A : Ty β} {m n : Machine β Ω} {f : FiberId} {s : Store β} {o : Outcome β}

theorem le_after (hs : s.Respects Γ) : Γ ≤ Γ.after m s := by
  unfold after
  split
  · exact le_declare hs.nextCell
  · exact le_refl Γ

theorem Comes.conform (h : Γ.Comes E A o) : o.conform E A = o := by
  cases o with
  | success v | failure v => exact if_pos (Has.ty h)
  | halt | interrupt | retry => rfl

end Typing

namespace Machine

variable {Γ Δ : Typing H} {E A : Ty β} {m n : Machine β Ω} {f : FiberId} {s : Store β} {x : Scene β Ω}
  {o : Outcome β}

theorem Typed.meets (h : m.Typed Γ E A) (hs : s.Respects Γ) (hle : Γ.after m s ≤ Δ) : m.Meets s Δ := by
  have hΔ : Γ ≤ Δ := le_trans (Typing.le_after hs) hle
  cases h with
  | exit => trivial
  | run _ ht _ hj =>
    cases ht with
    | touch hc =>
      intro T hT
      cases (hΔ _ _ hc).symm.trans hT
      exact (hj.entry hs hc).mono hΔ
    | make => exact hle _ _ Typing.made_declare
    | effect | crash | once | onSuccess | onSuccessOnce | onFailure | onRetry | orElse | provide | loop => trivial

theorem Typed.respects_step (h : m.Typed Γ E A) (hx : x.Respects Γ) :
    Scene.Respects ⟨(m.step f x.store x.world).2.1, (m.step f x.store x.world).2.2⟩
      (Γ.after m x.store) := by
  cases h with
  | exit => exact hx
  | run _ ht henv _ =>
    cases ht with
    | effect _ hg => exact ⟨hx.store, (hg _ _ _ hx.world henv).2⟩
    | make hv => exact ⟨hx.store.alloc hv, H.world_mono (Typing.le_declare hx.store.nextCell) hx.world⟩
    | @provide _ _ _ _ _ g =>
      simp only [Machine.step, Machine.enter]
      split <;> exact hx
    | touch | crash | once | onSuccess | onSuccessOnce | onFailure | onRetry | orElse | loop => exact hx

theorem typed_of_leads (h : Γ.Leads m Δ n) (hm : ∀ Θ, Γ ≤ Θ → m.Typed Θ E A) {Θ : Typing H}
    (hΘ : Δ ≤ Θ) : n.Typed Θ E A := by
  induction h generalizing Θ with
  | refl => exact hm Θ hΘ
  | @step _ n Δ' f x _ hle hx ih =>
    -- Before the step already, the machine is judged by a typing that has the cell which the step makes.
    have hafter : Δ' ≤ Θ := le_trans (Typing.le_after hx.store) hΘ
    have hn : n.Typed Θ E A := ih (le_trans hle hafter)
    exact hn.step (H.world_mono hafter hx.world) ((ih hle).meets hx.store hΘ)

theorem Typed.respects (h : m.Typed Γ E A) : m.journal.Respects Γ := by
  cases h with
  | run _ _ _ hj | exit _ _ _ hj => exact hj

theorem Typed.comes (h : m.Typed Γ E A) (ho : m.outcome? = some o) : Γ.Comes E A o := by
  cases h with
  | run => cases ho
  | @exit _ _ _ fs o _ _ hfs hc =>
    cases hfs with
    | nil =>
      rw [outcome?_exit] at ho
      cases ho
      exact hc
    | onSuccess | onFailure | onRetry | orElse | restore =>
      cases o with
      | halt | interrupt =>
        cases ho
        exact hc
      | success | failure | retry => cases ho

theorem leads_alone (hm : ∀ Θ, Γ ≤ Θ → m.Typed Θ E A) (hx : x.Respects Γ) (k : Nat) :
    ∃ (Δ : Typing H) (n : Machine β Ω) (y : Scene β Ω), Γ.Leads m Δ n ∧ y.Respects Δ ∧
      (fun (m, s, ω) => m.step f s ω)^[k] (m, x.store, x.world) = (n, y.store, y.world) := by
  induction k with
  | zero => exact ⟨Γ, m, x, .refl, hx, rfl⟩
  | succ k ih =>
    obtain ⟨Δ, n, y, hl, hy, e⟩ := ih
    have hn : n.Typed Δ E A := typed_of_leads hl hm (le_refl Δ)
    refine ⟨_, _, _, .step f y hl (le_refl Δ) hy, hn.respects_step (f := f) hy, ?_⟩
    rw [Function.iterate_succ_apply', e]

/-- Whatever is asked for at the next step, at the end of the run included, is of the type that it is asked for
at. -/
structure Finds (m : Machine β Ω) (Γ : Typing H) (s : Store β) (E A : Ty β) : Prop where
  continuation : ∀ v k fs, m.focus = .exit (.success v) → m.frames = .onSuccess k :: fs →
    ∀ ω, Asks v.ty (.done (mismatch v.ty)) (k ω)
  handler : ∀ v k fs, m.focus = .exit (.failure v) → m.frames = .onFailure k :: fs →
    ∀ ω, Asks v.ty (.done (mismatch v.ty)) (k ω)
  environment : ∀ g, m.focus = .run (.effect g) →
    ∀ ω f, Asks m.env.ty (.ok (mismatch m.env.ty), ω) (g ω f)
  derivation : ∀ t g, m.focus = .run (.provide t g) →
    Asks m.env.ty (pure (.error (.typeMismatch m.env.ty.name))) g
  read : ∀ c g, m.focus = .run (.touch c g) → Asks (m.journal.entry s c).current.ty
    (pure (.leave (mismatch (m.journal.entry s c).current.ty))) g
  write : ∀ c g ω v answer, m.focus = .run (.touch c g) → H.world Γ.toLayout ω →
    g (m.journal.entry s c).current ω = .ok (.write v answer) → v.ty = (m.journal.entry s c).current.ty
  value : ∀ v, m.focus = .exit (.success v) → m.frames = [] → v.ty = A
  error : ∀ v, m.focus = .exit (.failure v) → m.frames = [] → v.ty = E

theorem Typed.finds (h : m.Typed Γ E A) (hs : s.Respects Γ) : m.Finds Γ s E A := by
  cases h with
  | @run _ _ _ fs j t env hfs ht henv hj =>
    constructor
    case environment =>
      rintro g ⟨⟩
      cases ht with
      | effect hg => exact henv.ty ▸ hg
    case derivation =>
      rintro t g ⟨⟩
      cases ht with
      | provide _ hg => exact henv.ty ▸ hg
    case read =>
      rintro c g ⟨⟩
      cases ht with
      | touch hc hg => exact (hj.entry hs hc).current.ty ▸ hg
    case write =>
      rintro c g ω v answer ⟨⟩ hω hw
      cases ht with
      | touch hc _ hg =>
        have hv := (hj.entry hs hc).current
        exact (hg _ hv ω hω _ hw).1.ty.trans hv.ty.symm
    all_goals nofun
  | exit hfs hc =>
    constructor
    case continuation =>
      rintro v k fs ⟨⟩ ⟨⟩
      cases hfs with
      | onSuccess hk => exact (Typing.Has.ty hc) ▸ hk
    case handler =>
      rintro v k fs ⟨⟩ ⟨⟩
      cases hfs with
      | onFailure hk => exact (Typing.Has.ty hc) ▸ hk
    case value =>
      rintro v ⟨⟩ ⟨⟩
      cases hfs
      exact Typing.Has.ty hc
    case error =>
      rintro v ⟨⟩ ⟨⟩
      cases hfs
      exact Typing.Has.ty hc
    all_goals nofun

/-- Whoever comes after the next step, or after a publication, finds cells and surroundings as they may be. -/
structure Keeps (m : Machine β Ω) (Γ : Typing H) (x : Scene β Ω) : Prop where
  step : ∀ f, Scene.Respects ⟨(m.step f x.store x.world).2.1, (m.step f x.store x.world).2.2⟩
    (Γ.after m x.store)
  publication : ∀ w s j, m.journal.publish x.store = .ok (w, s, j) → s.Respects Γ

theorem Typed.keeps (h : m.Typed Γ E A) (hx : x.Respects Γ) : m.Keeps Γ x where
  step _ := h.respects_step hx
  publication _ _ _ hp := h.respects.publish hx.store hp

end Machine

end TransactionalMemory
