import TransactionalMemory.Proofs.History
import TransactionalMemory.Proofs.Meaning
import TransactionalMemory.Ref
import TransactionalMemory.Scenario.Val
import TransactionalMemory.Tx.Recover
import TransactionalMemory.Tx.Sequence

namespace TransactionalMemory

variable {β : Type} [Universe β] {Ω : Type}

namespace Tree

variable {f : FiberId} {env : Any β} {j j' : Journal β} {l : List (Scene β Ω)} {o p : Outcome β}
  {t u : Tree β Ω}

theorem ofCode_map {α : Type} (k : α → Tree β Ω) (c : Code Ω α) (ω : Ω) : ofCode (k <$> c) ω =
    match c ω with
    | .ok a => k a
    | .error p => crash p := by
  have h : (k <$> c) ω = (c ω).map k := rfl
  rw [ofCode, h]
  cases c ω <;> rfl

theorem evaluates_done_iff :
    (done p).Evaluates f env j l o j' ↔ (∃ x, l = [x]) ∧ o = p ∧ j' = j := by
  unfold done
  constructor
  · intro h
    cases h with
    | effect x => exact ⟨⟨x, rfl⟩, rfl, rfl⟩
  · rintro ⟨⟨x, rfl⟩, rfl, rfl⟩
    exact .effect x

theorem evaluates_onSuccess_iff {k : Ω → Any β → Tree β Ω} :
    (t.onSuccess k).Evaluates f env j l o j' ↔
      (t.Evaluates f env j l o j' ∧ ∀ v, o ≠ .success v) ∨
        ∃ l₁ x l₂ v j₁, l = l₁ ++ x :: l₂ ∧ t.Evaluates f env j l₁ (.success v) j₁ ∧
          (k x.world v).Evaluates f env j₁ l₂ o j' := by
  constructor
  · intro h
    cases h with
    | andThen x h h' => exact .inr ⟨_, x, _, _, _, rfl, h, h'⟩
    | notThen h hn => exact .inl ⟨h, hn⟩
  · rintro (⟨h, hn⟩ | ⟨l₁, x, l₂, v, j₁, rfl, h, h'⟩)
    · exact .notThen h hn
    · exact .andThen x h h'

theorem evaluates_onRetry_iff {k : Ω → Tree β Ω} : (t.onRetry k).Evaluates f env j l o j' ↔
    (t.Evaluates f env j l o j' ∧ o ≠ .retry) ∨
      ∃ l₁ x l₂ j₁, l = l₁ ++ x :: l₂ ∧ t.Evaluates f env j l₁ .retry j₁ ∧
        (k x.world).Evaluates f env j₁ l₂ o j' := by
  constructor
  · intro h
    cases h with
    | resume x h h' => exact .inr ⟨_, x, _, _, rfl, h, h'⟩
    | notResume h hn => exact .inl ⟨h, hn⟩
  · rintro (⟨h, hn⟩ | ⟨l₁, x, l₂, j₁, rfl, h, h'⟩)
    · exact .notResume h hn
    · exact .resume x h h'

theorem evaluates_orElse_iff : (t.orElse u).Evaluates f env j l o j' ↔
    (t.Evaluates f env j l o j' ∧ o ≠ .retry) ∨
      ∃ l₁ l₂ j₁, l = l₁ ++ l₂ ∧ t.Evaluates f env j l₁ .retry j₁ ∧
        u.Evaluates f env (j₁.rollback j.checkpoint) l₂ o j' := by
  constructor
  · intro h
    cases h with
    | right h h' => exact .inr ⟨_, _, _, rfl, h, h'⟩
    | left h hn => exact .inl ⟨h, hn⟩
  · rintro (⟨h, hn⟩ | ⟨l₁, l₂, j₁, rfl, h, h'⟩)
    · exact .left h hn
    · exact .right h h'

theorem evaluates_onRetry_done_iff : (t.onRetry fun _ => done p).Evaluates f env j l o j' ↔
    (t.Evaluates f env j l o j' ∧ o ≠ .retry) ∨
      ∃ l₁ x y, l = l₁ ++ [x, y] ∧ t.Evaluates f env j l₁ .retry j' ∧ o = p := by
  refine evaluates_onRetry_iff.trans (or_congr_right ?_)
  constructor
  · rintro ⟨l₁, x, l₂, j₁, rfl, h, h'⟩
    obtain ⟨⟨y, rfl⟩, rfl, rfl⟩ := evaluates_done_iff.1 h'
    exact ⟨l₁, x, y, rfl, h, rfl⟩
  · rintro ⟨l₁, x, y, rfl, h, rfl⟩
    exact ⟨l₁, x, [y], j', rfl, h, evaluates_done_iff.2 ⟨⟨y, rfl⟩, rfl, rfl⟩⟩

theorem evaluates_orElse_done_iff : (t.orElse (done p)).Evaluates f env j l o j' ↔
    (t.Evaluates f env j l o j' ∧ o ≠ .retry) ∨
      ∃ l₁ x j₁, l = l₁ ++ [x] ∧ t.Evaluates f env j l₁ .retry j₁ ∧ o = p ∧
        j' = j₁.rollback j.checkpoint := by
  refine evaluates_orElse_iff.trans (or_congr_right ?_)
  constructor
  · rintro ⟨l₁, l₂, j₁, rfl, h, h'⟩
    obtain ⟨⟨x, rfl⟩, rfl, rfl⟩ := evaluates_done_iff.1 h'
    exact ⟨l₁, x, j₁, rfl, h, rfl, rfl⟩
  · rintro ⟨l₁, x, j₁, rfl, h, rfl, rfl⟩
    exact ⟨l₁, [x], j₁, rfl, h, evaluates_done_iff.2 ⟨⟨x, rfl⟩, rfl, rfl⟩⟩

theorem exits_onRetry_done : (∃ l j', (t.onRetry fun _ => done p).Evaluates f env j l o j') ↔
    ∃ l j', (t.orElse (done p)).Evaluates f env j l o j' := by
  constructor
  · rintro ⟨l, j', h⟩
    rcases evaluates_onRetry_done_iff.1 h with hs | ⟨l₁, x, y, -, hr, rfl⟩
    · exact ⟨l, j', evaluates_orElse_done_iff.2 (.inl hs)⟩
    · exact ⟨_, _, evaluates_orElse_done_iff.2 (.inr ⟨l₁, x, j', rfl, hr, rfl, rfl⟩)⟩
  · rintro ⟨l, j', h⟩
    rcases evaluates_orElse_done_iff.1 h with hs | ⟨l₁, x, j₁, -, hr, rfl, -⟩
    · exact ⟨l, j', evaluates_onRetry_done_iff.2 (.inl hs)⟩
    · exact ⟨_, j₁, evaluates_onRetry_done_iff.2 (.inr ⟨l₁, x, x, rfl, hr, rfl⟩)⟩

theorem ends_onRetry_done
    (h : ∀ l j₁, t.Evaluates f env j l .retry j₁ → j₁.rollback j.checkpoint = j₁) :
    (∃ l, (t.onRetry fun _ => done p).Evaluates f env j l o j') ↔
      ∃ l, (t.orElse (done p)).Evaluates f env j l o j' := by
  constructor
  · rintro ⟨l, hl⟩
    rcases evaluates_onRetry_done_iff.1 hl with hs | ⟨l₁, x, y, -, hr, rfl⟩
    · exact ⟨l, evaluates_orElse_done_iff.2 (.inl hs)⟩
    · exact ⟨_, evaluates_orElse_done_iff.2 (.inr ⟨l₁, x, j', rfl, hr, rfl, (h l₁ j' hr).symm⟩)⟩
  · rintro ⟨l, hl⟩
    rcases evaluates_orElse_done_iff.1 hl with hs | ⟨l₁, x, j₁, -, hr, rfl, rfl⟩
    · exact ⟨l, evaluates_onRetry_done_iff.2 (.inl hs)⟩
    · rw [h l₁ j₁ hr]
      exact ⟨_, evaluates_onRetry_done_iff.2 (.inr ⟨l₁, x, x, rfl, hr, rfl⟩)⟩

end Tree

namespace Tx

variable {R E A B : Ty β} {f : FiberId} {env : Any β} {j j' : Journal β} {l : List (Scene β Ω)}
  {o : Outcome β}

theorem cont_succeed_ne_retry {g : A.El → Code Ω B.El} {ω : Ω} {v : Any β}
    (h : (cont A (fun a => (fun b => .done (.success ⟨B, b⟩)) <$> g a) ω v).Evaluates f env j l o j') :
    o ≠ .retry := by
  unfold cont at h
  cases hv : v.as A with
  | none =>
    rw [hv] at h
    obtain ⟨-, rfl, -⟩ := Tree.evaluates_done_iff.1 h
    simp [mismatch]
  | some a =>
    simp only [hv, Tree.ofCode_map] at h
    cases hg : g a ω with
    | error p =>
      rw [hg] at h
      cases h
      simp
    | ok b =>
      rw [hg] at h
      obtain ⟨-, rfl, -⟩ := Tree.evaluates_done_iff.1 h
      simp

theorem evaluates_map_retry_iff (t : Tx Ω R E A) (g : A.El → Code Ω B.El) :
    (t.map g).tree.Evaluates f env j l .retry j' ↔ t.tree.Evaluates f env j l .retry j' := by
  unfold map
  rw [Tree.evaluates_onSuccess_iff]
  constructor
  · rintro (⟨h, -⟩ | ⟨_, _, _, _, _, -, -, h⟩)
    · exact h
    · exact absurd rfl (cont_succeed_ne_retry h)
  · exact fun h => .inl ⟨h, nofun⟩

/-- The two ways to go on without a value, for any transaction from any journal. They end alike, and
alike in the journal unless the transaction retries. If it does, `optionally` leaves the journal as the
transaction has left it, with all that was written, and `orElse` takes the writes back. So they do the
same in all if the transaction never retries with a write that was not there before. -/
theorem evaluates_optionally (t : Tx Ω R E A) (f : FiberId) (env : Any β) (j : Journal β) :
    let some' : Tx Ω R E (.option A) := t.map fun a => pure (some a)
    let none' : Option A.El := none
    (∀ l o j', t.optionally.tree.Evaluates f env j l o j' ↔
      (some'.tree.Evaluates f env j l o j' ∧ o ≠ .retry) ∨
        ∃ l₁ x y, l = l₁ ++ [x, y] ∧ t.tree.Evaluates f env j l₁ .retry j' ∧
          o = .success ⟨.option A, none'⟩) ∧
    (∀ l o j', (some'.orElse (succeed none')).tree.Evaluates f env j l o j' ↔
      (some'.tree.Evaluates f env j l o j' ∧ o ≠ .retry) ∨
        ∃ l₁ x j₁, l = l₁ ++ [x] ∧ t.tree.Evaluates f env j l₁ .retry j₁ ∧
          o = .success ⟨.option A, none'⟩ ∧ j' = j₁.rollback j.checkpoint) ∧
    (∀ o, (∃ l j', t.optionally.tree.Evaluates f env j l o j') ↔
      ∃ l j', (some'.orElse (succeed none')).tree.Evaluates f env j l o j') ∧
    ((∀ l j₁, t.tree.Evaluates f env j l .retry j₁ → j₁.rollback j.checkpoint = j₁) → ∀ o j',
      (∃ l, t.optionally.tree.Evaluates f env j l o j') ↔
        ∃ l, (some'.orElse (succeed none')).tree.Evaluates f env j l o j') := by
  intro some' none'
  refine ⟨fun l o j' => ?_, fun l o j' => ?_, fun o => Tree.exits_onRetry_done,
    fun hclean o j' => Tree.ends_onRetry_done fun l j₁ h =>
      hclean l j₁ ((evaluates_map_retry_iff t _).1 h)⟩
  · refine Tree.evaluates_onRetry_done_iff.trans (or_congr_right ?_)
    simp only [evaluates_map_retry_iff]
    rfl
  · refine Tree.evaluates_orElse_done_iff.trans (or_congr_right ?_)
    simp only [some', evaluates_map_retry_iff]

end Tx

def abandoned : Tx Unit (.unit : Ty Scenario.Base) .never .nat :=
  (((⟨⟨1⟩⟩ : Ref .nat).set (1 : Nat)).zipRight .retry)

def runOnce (t : Tx Unit (.unit : Ty Scenario.Base) .never (.option .nat)) :
    List (Move Scenario.Base Unit) :=
  [.alloc ⟨.nat, (0 : Nat)⟩, .commit t.tree .never (.option .nat) none, .runSync ⟨1⟩] ++
    List.replicate 14 (.advance ⟨1⟩)

theorem published_abandoned :
    let none' : Option Nat := none
    let t := abandoned.optionally
    let u := (abandoned.map fun a => pure (some a) : Tx Unit .unit .never (.option .nat)).orElse
      (.succeed none')
    let e := (Engine.play { world := () } [] (runOnce t)).2
    let e' := (Engine.play { world := () } [] (runOnce u)).2
    Engine.allows { world := () } (runOnce t) ∧ Engine.allows { world := () } (runOnce u) ∧
      e.answer? ⟨1⟩ = some (.ready (.ok ⟨.option .nat, none'⟩)) ∧ e.answer? ⟨1⟩ = e'.answer? ⟨1⟩ ∧
      e.store.value ⟨1⟩ = ⟨.nat, (1 : Nat)⟩ ∧ e'.store.value ⟨1⟩ = ⟨.nat, (0 : Nat)⟩ := by
  -- Of two commits that both succeed with nothing, the one has published a write of a transaction that has
  -- retried.
  refine ⟨by decide +kernel, by decide +kernel, ?_⟩
  with_unfolding_all exact ⟨rfl, rfl, rfl, rfl⟩

end TransactionalMemory
