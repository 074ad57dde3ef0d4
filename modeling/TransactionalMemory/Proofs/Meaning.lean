import TransactionalMemory.Proofs.Journals

/-! What a tree means, without a machine: the outcome of a tree is put together from the outcomes of
its parts. The machine, with its one stack of frames, gives trees this meaning. -/

namespace TransactionalMemory

/-- What a step that looks around finds: the cells and the surroundings of that moment. -/
structure Scene (β : Type) [Universe β] (Ω : Type) where
  store : Store β
  world : Ω

variable {β : Type} [Universe β] {Ω : Type}

/-- Run in an environment over a journal, the tree comes to an outcome and leaves a journal. The
scenes are those it has looked at on the way. Others may have changed anything between any two. -/
inductive Tree.Evaluates (f : FiberId) :
    Tree β Ω → Any β → Journal β → List (Scene β Ω) → Outcome β → Journal β → Prop
  | effect (x : Scene β Ω) :
    Evaluates f (.effect g) env j [x] (Machine.caught (g x.world f env).1) j
  | touch (x : Scene β Ω) :
    Evaluates f (.touch c g) env j [x] (j.touch x.store c fun v => g v x.world).1
      (j.touch x.store c fun v => g v x.world).2
  | make (x : Scene β Ω) :
    Evaluates f (.make v answer) env j [x] (.success (answer x.store.nextCell))
      (j.insertNew (x.store.alloc v).2 x.store.nextCell)
  | crash : Evaluates f (.crash p) env j [] (.halt (.ofPanic p)) j
  | once (x : Scene β Ω) : Evaluates f (.once v) env j [x] (.success v) j
  | andThen (x : Scene β Ω) :
    Evaluates f t env j l (.success v) j₁ → Evaluates f (k x.world v) env j₁ l' o j₂ →
    Evaluates f (.onSuccess t k) env j (l ++ x :: l') o j₂
  | notThen :
    Evaluates f t env j l o j₁ → (∀ v, o ≠ .success v) →
    Evaluates f (.onSuccess t k) env j l o j₁
  | usedUp :
    Evaluates f (.onSuccess t k) env j l o j₁ → Evaluates f (.onSuccessOnce t k) env j l o j₁
  | recover (x : Scene β Ω) :
    Evaluates f t env j l (.failure v) j₁ → Evaluates f (k x.world v) env j₁ l' o j₂ →
    Evaluates f (.onFailure t k) env j (l ++ x :: l') o j₂
  | notRecover :
    Evaluates f t env j l o j₁ → (∀ v, o ≠ .failure v) →
    Evaluates f (.onFailure t k) env j l o j₁
  | resume (x : Scene β Ω) :
    Evaluates f t env j l .retry j₁ → Evaluates f (k x.world) env j₁ l' o j₂ →
    Evaluates f (.onRetry t k) env j (l ++ x :: l') o j₂
  | notResume :
    Evaluates f t env j l o j₁ → o ≠ .retry → Evaluates f (.onRetry t k) env j l o j₁
  | right :
    Evaluates f a env j l .retry j₁ → Evaluates f b env (j₁.rollback j.checkpoint) l' o j₂ →
    Evaluates f (.orElse a b) env j (l ++ l') o j₂
  | left : Evaluates f a env j l o j₁ → o ≠ .retry → Evaluates f (.orElse a b) env j l o j₁
  | provide (x : Scene β Ω) :
    g env x.world = .ok (.ok env₁) → Evaluates f t env₁ j l o j₁ →
    Evaluates f (.provide t g) env j (x :: l) o j₁
  | deny (x : Scene β Ω) :
    g env x.world = .ok (.error d) → Evaluates f (.provide t g) env j [x] (.halt d) j
  | denyCrash (x : Scene β Ω) :
    g env x.world = .error p → Evaluates f (.provide t g) env j [x] (.halt (.ofPanic p)) j
  | loop :
    Evaluates f (.onSuccess t (.again t judge)) env j l o j₁ →
    Evaluates f (.loop t judge) env j l o j₁

namespace Frame

def takes : Frame β Ω → Outcome β → Bool
  | onSuccess _, .success _ => true
  | onFailure _, .failure _ => true
  | onRetry _, .retry | orElse _ _, .retry => true
  | _, _ => false

def outside (env : Any β) : Frame β Ω → Any β
  | restore env => env
  | _ => env

variable {o : Outcome β} {k : Ω → Any β → Tree β Ω} {t : Tree β Ω}

@[simp] theorem takes_onSuccess : (onSuccess k).takes o ↔ ∃ v, o = .success v := by
  cases o <;> simp [takes]

@[simp] theorem takes_onFailure : (onFailure k).takes o ↔ ∃ v, o = .failure v := by
  cases o <;> simp [takes]

@[simp] theorem takes_onRetry {k : Ω → Tree β Ω} : (onRetry k).takes o ↔ o = .retry := by
  cases o <;> simp [takes]

@[simp] theorem takes_orElse {saved : Checkpoint β} : (orElse saved t).takes o ↔ o = .retry := by
  cases o <;> simp [takes]

theorem takes_restore {env : Any β} : ¬(restore env : Frame β Ω).takes o := by
  cases o <;> simp [takes]

end Frame

namespace Machine

def looks (m : Machine β Ω) : Bool :=
  match m.focus, m.frames with
  | .run (.effect _), _ | .run (.touch _ _), _ | .run (.make _ _), _ | .run (.once _), _
  | .run (.provide _ _), _ => true
  | .exit .retry, .orElse _ _ :: _ => false
  | .exit o, g :: _ => g.takes o
  | _, _ => false

/-- After so many steps the machine has come to an outcome and leaves a journal. Only the scenes are
listed that a step has looked at. -/
inductive Ends (f : FiberId) :
    Machine β Ω → Nat → List (Scene β Ω) → Outcome β → Journal β → Prop
  | done : m.outcome? = some o → Ends f m 0 [] o m.journal
  | look (x : Scene β Ω) : m.looks →
    Ends f (m.step f x.store x.world).1 n l o j → Ends f m (n + 1) (x :: l) o j
  | quiet (x : Scene β Ω) : m.outcome? = none → m.looks = false →
    Ends f (m.step f x.store x.world).1 n l o j → Ends f m (n + 1) l o j

variable {m : Machine β Ω} {f : FiberId} {env : Any β} {fs : List (Frame β Ω)} {j j' : Journal β}
  {n : Nat} {l : List (Scene β Ω)} {o o' : Outcome β} {t : Tree β Ω} {g : Frame β Ω}

@[simp] theorem outcome?_exit : outcome? (⟨.exit o, env, [], j⟩ : Machine β Ω) = some o := by
  cases o <;> rfl

theorem outcome?_of_looks (h : m.looks) : m.outcome? = none := by
  obtain ⟨focus, env, frames, j⟩ := m
  cases focus with
  | run t => rfl
  | exit o =>
    cases frames with
    | nil => simp [looks] at h
    | cons g fs => cases o <;> first | rfl | cases g <;> cases h

theorem step_of_not_looks (h : m.looks = false) {s s' : Store β} {ω ω' : Ω} :
    (m.step f s ω).1 = (m.step f s' ω').1 := by
  obtain ⟨focus, env, frames, j⟩ := m
  cases focus with
  | run t =>
    cases t with
    | effect | touch | make | once | provide => cases h
    | crash | onSuccess | onSuccessOnce | onFailure | onRetry | orElse | loop => rfl
  | exit o =>
    cases frames with
    | nil => cases o <;> rfl
    | cons g fs => cases o <;> cases g <;> first | rfl | cases h

theorem exit_cases (f : FiberId) (env : Any β) (fs : List (Frame β Ω)) (j : Journal β)
    (hg : ¬g.takes o) :
    (∀ (env : Any β) (fs : List (Frame β Ω)), outcome? ⟨.exit o, env, fs, j⟩ = some o) ∨
      outcome? ⟨.exit o, env, g :: fs, j⟩ = none ∧ looks ⟨.exit o, env, g :: fs, j⟩ = false ∧
        ∀ s ω, (step ⟨.exit o, env, g :: fs, j⟩ f s ω).1 = ⟨.exit o, g.outside env, fs, j⟩ := by
  cases o with
  | halt | interrupt => exact .inl fun _ _ => rfl
  | success | failure | retry =>
    refine .inr ⟨rfl, ?_⟩
    cases g <;> first | exact ⟨rfl, fun _ _ => rfl⟩ | simp [Frame.takes] at hg

namespace Ends

theorem of_outcome (h : Ends f m n l o j) (ho : m.outcome? = some o') :
    n = 0 ∧ l = [] ∧ o = o' ∧ j = m.journal := by
  cases h with
  | done h => exact ⟨rfl, rfl, Option.some.inj (h.symm.trans ho), rfl⟩
  | look _ h => simp [outcome?_of_looks h] at ho
  | quiet _ h => simp [ho] at h

theorem of_looks (h : Ends f m n l o j) (hl : m.looks) :
    ∃ x l' k, l = x :: l' ∧ n = k + 1 ∧ Ends f (m.step f x.store x.world).1 k l' o j := by
  cases h with
  | done h => simp [outcome?_of_looks hl] at h
  | look x _ h => exact ⟨x, _, _, rfl, rfl, h⟩
  | quiet _ _ h => simp [hl] at h

theorem of_quiet (h : Ends f m n l o j) (ho : m.outcome? = none) (hl : m.looks = false) :
    ∃ (x : Scene β Ω) (k : Nat), n = k + 1 ∧ Ends f (m.step f x.store x.world).1 k l o j := by
  cases h with
  | done h => simp [ho] at h
  | look _ h => simp [hl] at h
  | quiet x _ _ h => exact ⟨x, _, rfl, h⟩

theorem inside [Inhabited Ω] (hg : ¬g.takes o)
    (h : Ends f ⟨.exit o, g.outside env, fs, j⟩ n l o' j') :
    ∃ k, Ends f ⟨.exit o, env, g :: fs, j⟩ k l o' j' := by
  obtain he | ⟨ho, hl, hs⟩ := exit_cases f env fs j hg
  · obtain ⟨rfl, rfl, rfl, rfl⟩ := h.of_outcome (he ..)
    exact ⟨0, .done (he ..)⟩
  · exact ⟨n + 1, .quiet ⟨{}, default⟩ ho hl (hs .. ▸ h)⟩

theorem outside (hg : ¬g.takes o) (h : Ends f ⟨.exit o, env, g :: fs, j⟩ n l o' j') :
    ∃ k ≤ n, Ends f ⟨.exit o, g.outside env, fs, j⟩ k l o' j' := by
  obtain he | ⟨ho, hl, hs⟩ := exit_cases f env fs j hg
  · obtain ⟨rfl, rfl, rfl, rfl⟩ := h.of_outcome (he ..)
    exact ⟨0, Nat.le_refl _, .done (he ..)⟩
  · obtain ⟨x, k, rfl, hk⟩ := h.of_quiet ho hl
    exact ⟨k, Nat.le_succ k, hs x.store x.world ▸ hk⟩

end Ends

end Machine

open Machine

theorem Tree.Evaluates.ends [Inhabited Ω] {f : FiberId} {t : Tree β Ω} {env : Any β}
    {j j₁ j' : Journal β} {l l' : List (Scene β Ω)} {o o' : Outcome β} {r : List (Frame β Ω)} {n : Nat}
    (h : t.Evaluates f env j l o j₁) (hn : Ends f ⟨.exit o, env, r, j₁⟩ n l' o' j') :
    ∃ n, Ends f ⟨.run t, env, r, j⟩ n (l ++ l') o' j' := by
  induction h generalizing r n l' with
  | effect x | touch x | make x | once x => exact ⟨n + 1, .look x rfl hn⟩
  | crash => exact ⟨n + 1, .quiet ⟨{}, default⟩ rfl rfl hn⟩
  | @andThen _ _ _ _ _ _ k _ _ _ x _ _ ih ih' =>
    obtain ⟨n, h⟩ := ih' hn
    obtain ⟨n, h⟩ := ih (r := .onSuccess k :: r) (.look x rfl h)
    rw [List.append_assoc]
    exact ⟨n + 1, .quiet ⟨{}, default⟩ rfl rfl h⟩
  | @notThen _ _ _ _ _ _ k _ ho ih =>
    obtain ⟨n, h⟩ := hn.inside (g := .onSuccess k) (by simpa using ho)
    obtain ⟨n, h⟩ := ih h
    exact ⟨n + 1, .quiet ⟨{}, default⟩ rfl rfl h⟩
  | @recover _ _ _ _ _ _ k _ _ _ x _ _ ih ih' =>
    obtain ⟨n, h⟩ := ih' hn
    obtain ⟨n, h⟩ := ih (r := .onFailure k :: r) (.look x rfl h)
    rw [List.append_assoc]
    exact ⟨n + 1, .quiet ⟨{}, default⟩ rfl rfl h⟩
  | @notRecover _ _ _ _ _ _ k _ ho ih =>
    obtain ⟨n, h⟩ := hn.inside (g := .onFailure k) (by simpa using ho)
    obtain ⟨n, h⟩ := ih h
    exact ⟨n + 1, .quiet ⟨{}, default⟩ rfl rfl h⟩
  | @resume _ _ _ _ _ k _ _ _ x _ _ ih ih' =>
    obtain ⟨n, h⟩ := ih' hn
    obtain ⟨n, h⟩ := ih (r := .onRetry k :: r) (.look x rfl h)
    rw [List.append_assoc]
    exact ⟨n + 1, .quiet ⟨{}, default⟩ rfl rfl h⟩
  | @notResume _ _ _ _ _ _ k _ ho ih =>
    obtain ⟨n, h⟩ := hn.inside (g := .onRetry k) (by simpa using ho)
    obtain ⟨n, h⟩ := ih h
    exact ⟨n + 1, .quiet ⟨{}, default⟩ rfl rfl h⟩
  | @right _ _ _ _ _ b _ _ _ _ _ ih ih' =>
    obtain ⟨n, h⟩ := ih' hn
    obtain ⟨n, h⟩ := ih (r := .orElse _ b :: r) (.quiet ⟨{}, default⟩ rfl rfl h)
    rw [List.append_assoc]
    exact ⟨n + 1, .quiet ⟨{}, default⟩ rfl rfl h⟩
  | @left _ _ j _ _ _ b _ ho ih =>
    obtain ⟨n, h⟩ := hn.inside (g := .orElse j.checkpoint b) (by simpa using ho)
    obtain ⟨n, h⟩ := ih h
    exact ⟨n + 1, .quiet ⟨{}, default⟩ rfl rfl h⟩
  | @provide _ _ _ _ _ _ _ env x hg _ ih =>
    obtain ⟨n, h⟩ := hn.inside (g := .restore env) Frame.takes_restore
    obtain ⟨n, h⟩ := ih h
    exact ⟨n + 1, .look x rfl (by simpa [step, enter, hg] using h)⟩
  | deny x hg | denyCrash x hg =>
    exact ⟨n + 1, .look x rfl (by simpa [step, enter, hg] using hn)⟩
  | usedUp _ ih | loop _ ih =>
    -- The machine pushes the frame of the chained tree for them, and nothing else.
    obtain ⟨n, h⟩ := ih hn
    obtain ⟨_, n, -, h⟩ := h.of_quiet rfl rfl
    exact ⟨n + 1, .quiet ⟨{}, default⟩ rfl rfl h⟩

/-- A run of so many steps that has a tree in focus goes through the meaning of the tree first. -/
def Machine.Through (Ω : Type) (f : FiberId) (o' : Outcome β) (j' : Journal β) (n : Nat) : Prop :=
  ∀ {t : Tree β Ω} {env : Any β} {fs : List (Frame β Ω)} {j : Journal β} {l : List (Scene β Ω)},
    Ends f ⟨.run t, env, fs, j⟩ n l o' j' →
    ∃ l₁ l₂ o j₁, ∃ k < n, l = l₁ ++ l₂ ∧ t.Evaluates f env j l₁ o j₁ ∧
      Ends f ⟨.exit o, env, fs, j₁⟩ k l₂ o' j'

section

variable {f : FiberId} {t : Tree β Ω} {env : Any β} {j j' : Journal β} {l : List (Scene β Ω)}
  {o' : Outcome β} {fs : List (Frame β Ω)} {n : Nat} {c : Ω → Any β → Tree β Ω}

theorem Machine.Ends.through_onSuccess (ih : ∀ k < n, Through Ω f o' j' k)
    (h : Ends f ⟨.run (.onSuccess t c), env, fs, j⟩ n l o' j') :
    ∃ l₁ l₂ o j₁, ∃ k < n, l = l₁ ++ l₂ ∧ (t.onSuccess c).Evaluates f env j l₁ o j₁ ∧
      Ends f ⟨.exit o, env, fs, j₁⟩ k l₂ o' j' := by
  -- A step is needed to push the frame, so fewer are left for the tree and for what follows it.
  obtain ⟨_, n, rfl, h₀⟩ := h.of_quiet rfl rfl
  obtain ⟨l₁, l₂, o, j₁, k, hk, rfl, he, h₁⟩ := ih n (by omega) h₀
  by_cases ho : (Frame.onSuccess c).takes o
  · obtain ⟨v, rfl⟩ := Frame.takes_onSuccess.1 ho
    obtain ⟨x, l₂, k, rfl, rfl, h₂⟩ := h₁.of_looks rfl
    obtain ⟨l₂, l₃, o, j₂, k', hk', rfl, he', h₃⟩ := ih k (by omega) h₂
    exact ⟨l₁ ++ x :: l₂, l₃, o, j₂, k', by omega, by simp, .andThen x he he', h₃⟩
  · obtain ⟨k', hk', h₂⟩ := h₁.outside ho
    exact ⟨l₁, l₂, o, j₁, k', by omega, rfl, .notThen he (by simpa using ho), h₂⟩

/-- A run of the machine that has a tree in focus goes through the meaning of the tree first. -/
theorem Machine.Ends.evaluates (h : Ends f ⟨.run t, env, fs, j⟩ n l o' j') :
    ∃ l₁ l₂ o j₁, ∃ k < n, l = l₁ ++ l₂ ∧ t.Evaluates f env j l₁ o j₁ ∧
      Ends f ⟨.exit o, env, fs, j₁⟩ k l₂ o' j' := by
  induction n using Nat.strongRecOn generalizing t env fs j l with
  | _ n ih =>
    cases t with
    | effect =>
      obtain ⟨x, l, n, rfl, rfl, h'⟩ := h.of_looks rfl
      exact ⟨[x], l, _, _, n, Nat.lt_succ_self n, rfl, .effect x, h'⟩
    | touch =>
      obtain ⟨x, l, n, rfl, rfl, h'⟩ := h.of_looks rfl
      exact ⟨[x], l, _, _, n, Nat.lt_succ_self n, rfl, .touch x, h'⟩
    | make =>
      obtain ⟨x, l, n, rfl, rfl, h'⟩ := h.of_looks rfl
      exact ⟨[x], l, _, _, n, Nat.lt_succ_self n, rfl, .make x, h'⟩
    | crash =>
      obtain ⟨x, n, rfl, h'⟩ := h.of_quiet rfl rfl
      exact ⟨[], l, _, _, n, Nat.lt_succ_self n, rfl, .crash, h'⟩
    | once v =>
      obtain ⟨x, l, n, rfl, rfl, h'⟩ := h.of_looks rfl
      exact ⟨[x], l, _, _, n, Nat.lt_succ_self n, rfl, .once x, h'⟩
    | onSuccess t c => exact h.through_onSuccess fun k hk _ _ _ _ _ => ih k hk
    | onSuccessOnce t c =>
      obtain ⟨x, n, rfl, h₀⟩ := h.of_quiet rfl rfl
      have h₁ : Ends f ⟨.run (.onSuccess t c), env, fs, j⟩ (n + 1) l o' j' := .quiet x rfl rfl h₀
      obtain ⟨l₁, l₂, o, j₁, k, hk, e, he, h₂⟩ := h₁.through_onSuccess fun k hk _ _ _ _ _ => ih k hk
      exact ⟨l₁, l₂, o, j₁, k, hk, e, .usedUp he, h₂⟩
    | onFailure t c =>
      obtain ⟨_, n, rfl, h₀⟩ := h.of_quiet rfl rfl
      obtain ⟨l₁, l₂, o, j₁, k, hk, rfl, he, h₁⟩ := ih n (by omega) h₀
      by_cases ho : (Frame.onFailure c).takes o
      · obtain ⟨v, rfl⟩ := Frame.takes_onFailure.1 ho
        obtain ⟨x, l₂, k, rfl, rfl, h₂⟩ := h₁.of_looks rfl
        obtain ⟨l₂, l₃, o, j₂, k', hk', rfl, he', h₃⟩ := ih k (by omega) h₂
        exact ⟨l₁ ++ x :: l₂, l₃, o, j₂, k', by omega, by simp, .recover x he he', h₃⟩
      · obtain ⟨k', hk', h₂⟩ := h₁.outside ho
        exact ⟨l₁, l₂, o, j₁, k', by omega, rfl, .notRecover he (by simpa using ho), h₂⟩
    | onRetry t c =>
      obtain ⟨_, n, rfl, h₀⟩ := h.of_quiet rfl rfl
      obtain ⟨l₁, l₂, o, j₁, k, hk, rfl, he, h₁⟩ := ih n (by omega) h₀
      by_cases ho : (Frame.onRetry c).takes o
      · obtain rfl := Frame.takes_onRetry.1 ho
        obtain ⟨x, l₂, k, rfl, rfl, h₂⟩ := h₁.of_looks rfl
        obtain ⟨l₂, l₃, o, j₂, k', hk', rfl, he', h₃⟩ := ih k (by omega) h₂
        exact ⟨l₁ ++ x :: l₂, l₃, o, j₂, k', by omega, by simp, .resume x he he', h₃⟩
      · obtain ⟨k', hk', h₂⟩ := h₁.outside ho
        exact ⟨l₁, l₂, o, j₁, k', by omega, rfl, .notResume he (by simpa using ho), h₂⟩
    | orElse a b =>
      obtain ⟨_, n, rfl, h₀⟩ := h.of_quiet rfl rfl
      obtain ⟨l₁, l₂, o, j₁, k, hk, rfl, he, h₁⟩ := ih n (by omega) h₀
      by_cases ho : (Frame.orElse j.checkpoint b).takes o
      · obtain rfl := Frame.takes_orElse.1 ho
        obtain ⟨_, k, rfl, h₂⟩ := h₁.of_quiet rfl rfl
        obtain ⟨l₂, l₃, o, j₂, k', hk', rfl, he', h₃⟩ := ih k (by omega) h₂
        exact ⟨l₁ ++ l₂, l₃, o, j₂, k', by omega, by simp, .right he he', h₃⟩
      · obtain ⟨k', hk', h₂⟩ := h₁.outside ho
        exact ⟨l₁, l₂, o, j₁, k', by omega, rfl, .left he (by simpa using ho), h₂⟩
    | provide t g =>
      obtain ⟨x, l, n, rfl, rfl, h₀⟩ := h.of_looks rfl
      cases hg : g env x.world with
      | error p =>
        simp only [step, enter, hg] at h₀
        exact ⟨[x], l, _, _, n, Nat.lt_succ_self n, rfl, .denyCrash x hg, h₀⟩
      | ok r =>
        cases r with
        | error d =>
          simp only [step, enter, hg] at h₀
          exact ⟨[x], l, _, _, n, Nat.lt_succ_self n, rfl, .deny x hg, h₀⟩
        | ok env' =>
          simp only [step, enter, hg] at h₀
          obtain ⟨l₁, l₂, o, j₁, k, hk, rfl, he, h₁⟩ := ih n (by omega) h₀
          obtain ⟨k', hk', h₂⟩ := h₁.outside Frame.takes_restore
          exact ⟨x :: l₁, l₂, o, j₁, k', by omega, rfl, .provide x hg he, h₂⟩
    | loop t judge =>
      obtain ⟨x, n, rfl, h₀⟩ := h.of_quiet rfl rfl
      have h₁ : Ends f ⟨.run (.onSuccess t (.again t judge)), env, fs, j⟩ (n + 1) l o' j' :=
        .quiet x rfl rfl h₀
      obtain ⟨l₁, l₂, o, j₁, k, hk, e, he, h₂⟩ := h₁.through_onSuccess fun k hk _ _ _ _ _ => ih k hk
      exact ⟨l₁, l₂, o, j₁, k, hk, e, .loop he, h₂⟩

end

section

variable [Inhabited Ω] {f : FiberId} {t : Tree β Ω} {env : Any β} {j j₁ j₂ : Journal β}
  {l : List (Scene β Ω)} {o o₁ o₂ : Outcome β}

/-- The machine comes to an outcome, and leaves a journal, exactly when the tree means it to. -/
theorem Tree.evaluates_iff_ends :
    t.Evaluates f env j l o j₁ ↔ ∃ n, Ends f { focus := .run t, env, journal := j } n l o j₁ := by
  constructor
  · intro h
    simpa using h.ends (r := []) (.done outcome?_exit)
  · rintro ⟨n, h⟩
    obtain ⟨l₁, l₂, o₁, j₁, k, -, rfl, he, h⟩ := h.evaluates
    obtain ⟨-, rfl, rfl, rfl⟩ := h.of_outcome outcome?_exit
    simpa using he

end

def Phase.scenes (p : Phase β Ω) (l : List (Scene β Ω)) (x : Scene β Ω) : List (Scene β Ω) :=
  match p.attempt? with
  | some m => if m.looks then l ++ [x] else l
  | none => []

def History.scenes (i : CommitId) : History β Ω → List (Scene β Ω)
  | [] => []
  | (e, .advance k) :: h =>
    if k = i then
      match e.commits[i]? with
      | some c => c.phase.scenes (scenes i h) ⟨e.store, e.world⟩
      | none => []
    else scenes i h
  | _ :: h => scenes i h

/-- Having looked at the scenes the machine is where it may be, from where it was: whatever it comes to from
there on, a run from where it was comes to. -/
def Machine.Reaches (was : Machine β Ω) (f : FiberId) (l : List (Scene β Ω)) (m : Machine β Ω) : Prop :=
  ∀ n l' o j, Ends f m n l' o j → ∃ k, Ends f was k (l ++ l') o j

section

variable {t : Tree β Ω} {f : FiberId} {l : List (Scene β Ω)} {was m : Machine β Ω} {h : History β Ω}
  {e : Engine β Ω} {i : CommitId} {c : Commit β Ω}

theorem Machine.Reaches.start : m.Reaches f [] m := fun n _ _ _ h => ⟨n, h⟩

theorem Machine.Reaches.step (hm : was.Reaches f l m) (ho : m.outcome? = none) (x : Scene β Ω) :
    was.Reaches f (if m.looks then l ++ [x] else l) (m.step f x.store x.world).1 := by
  intro n l' o j h
  split
  · rename_i hl
    rw [List.append_assoc]
    exact hm _ _ o j (.look x hl h)
  · rename_i hl
    exact hm _ _ o j (.quiet x ho (by simpa using hl) h)

theorem Machine.Reaches.evaluates [Inhabited Ω] {env : Any β} {j : Journal β} {o : Outcome β}
    (hm : Reaches { focus := .run t, env, journal := j } f l m) (ho : m.outcome? = some o) :
    t.Evaluates f env j l o m.journal := by
  obtain ⟨n, hn⟩ := hm 0 [] o m.journal (.done ho)
  rw [List.append_nil] at hn
  exact Tree.evaluates_iff_ends.2 ⟨n, hn⟩

theorem History.scenes_of_ne {m : Move β Ω} (hm : m ≠ .advance i) :
    scenes i ((e, m) :: h) = h.scenes i := by
  cases m with
  | advance k => exact if_neg fun hk => hm (congrArg _ hk)
  | _ => rfl

theorem History.scenes_advance (hc : e.commits[i]? = some c) :
    scenes i ((e, .advance i) :: h) = c.phase.scenes (h.scenes i) ⟨e.store, e.world⟩ := by
  rw [scenes, if_pos rfl, hc]

theorem Run.reaches (r : Run h e) (hc : e.commits[i]? = some c) (hm : c.phase.attempt? = some m) :
    (Machine.start c.tree .unit).Reaches c.fiber (h.scenes i) m := by
  refine r.each_attempt (P := fun h _ i t f m => (Machine.start t .unit).Reaches f (h.scenes i) m) ?_ ?_ ?_ hc hm
  · intro h e i c call _ hc hp
    rw [History.scenes_advance hc, hp]
    exact .start
  · intro h e i c call m _ hc hp ho hm
    rw [History.scenes_advance hc, hp]
    exact hm.step ho ⟨e.store, e.world⟩
  · intro h e i c m x _ _ hx _ _ hm
    rwa [History.scenes_of_ne hx]

/-- An attempt that has come to its end has gone through the meaning of its tree, whatever others have
done between any two of its turns. -/
theorem Run.evaluates (r : Run h e) (hc : e.commits[i]? = some c) (hm : c.phase.attempt? = some m)
    {o : Outcome β} (ho : m.outcome? = some o) :
    c.tree.Evaluates c.fiber .unit {} (h.scenes i) o m.journal := by
  have : Inhabited Ω := ⟨e.world⟩
  exact (r.reaches hc hm).evaluates ho

end

end TransactionalMemory
