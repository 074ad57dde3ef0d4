import Mathlib.Data.Stream.Init
import TransactionalMemory.Proofs.Recovery

/-! Transactions run along a course of events, which goes on for ever. A run takes from it what it looks at
and leaves the rest, so that what is run next takes up where it has stopped. What a transaction comes to on a
course is told at the types it claims to have. -/

namespace TransactionalMemory

variable {β : Type} [Universe β] {Ω : Type}

/-- What there is to be found at one look after the other. Others may change anything between any two. -/
abbrev Course (β : Type) [Universe β] (Ω : Type) := Stream' (Scene β Ω)

inductive Channel
  | success | failure

namespace Channel

def carry : Channel → Any β → Outcome β
  | success, v => .success v
  | failure, v => .failure v

def ty (E A : Ty β) : Channel → Ty β
  | success => A
  | failure => E

variable {c : Channel} {v w : Any β} {E A : Ty β}

theorem carry_inj : (c.carry v : Outcome β) = c.carry w ↔ v = w := by
  cases c <;> simp [carry]

theorem conform_carry : (c.carry v).conform E A =
    (v.as (c.ty E A)).elim (mismatch (c.ty E A)) fun x => c.carry ⟨c.ty E A, x⟩ := by
  have h : (c.carry v).conform E A = if v.ty = c.ty E A then c.carry v else mismatch (c.ty E A) := by
    cases c <;> rfl
  rw [h]
  cases hv : v.as (c.ty E A) with
  | none =>
    rw [if_neg]
    · rfl
    · rw [← Any.as_isSome, hv]
      simp
  | some x =>
    obtain rfl := Any.as_eq_some hv
    rw [if_pos rfl]
    rfl

end Channel

namespace Tree

def follow (t : Tree β Ω) (k : Ω → Any β → Tree β Ω) : Channel → Tree β Ω
  | .success => t.onSuccess k
  | .failure => t.onFailure k

/-- Run on a course, the tree comes to an outcome and leaves a journal and the rest of the course. -/
def Ends (f : FiberId) (env : Any β) (t : Tree β Ω) (j : Journal β) (σ : Course β Ω) (o : Outcome β)
    (j' : Journal β) (σ' : Course β Ω) : Prop :=
  ∃ l, σ = l ++ₛ σ' ∧ t.Evaluates f env j l o j'

variable {f : FiberId} {env : Any β} {j j' : Journal β} {l : List (Scene β Ω)} {σ σ' : Course β Ω}
  {o p : Outcome β} {t u : Tree β Ω} {c : Channel} {k k' : Ω → Any β → Tree β Ω} {v : Any β}

theorem evaluates_follow_iff : (t.follow k c).Evaluates f env j l o j' ↔
    (t.Evaluates f env j l o j' ∧ ∀ v, o ≠ c.carry v) ∨
      ∃ l₁ x l₂ v j₁, l = l₁ ++ x :: l₂ ∧ t.Evaluates f env j l₁ (c.carry v) j₁ ∧
        (k x.world v).Evaluates f env j₁ l₂ o j' := by
  cases c with
  | success => exact evaluates_onSuccess_iff
  | failure =>
    constructor
    · intro h
      cases h with
      | recover x h h' => exact .inr ⟨_, x, _, _, _, rfl, h, h'⟩
      | notRecover h hn => exact .inl ⟨h, hn⟩
    · rintro (⟨h, hn⟩ | ⟨l₁, x, l₂, v, j₁, rfl, h, h'⟩)
      · exact .notRecover h hn
      · exact .recover x h h'

theorem ends_done_iff : (done p).Ends f env j σ o j' σ' ↔ o = p ∧ j' = j ∧ σ' = σ.tail := by
  constructor
  · rintro ⟨l, rfl, h⟩
    obtain ⟨⟨x, rfl⟩, rfl, rfl⟩ := evaluates_done_iff.1 h
    exact ⟨rfl, rfl, rfl⟩
  · rintro ⟨rfl, rfl, rfl⟩
    exact ⟨[σ.head], (Stream'.eta σ).symm, evaluates_done_iff.2 ⟨⟨_, rfl⟩, rfl, rfl⟩⟩

theorem ends_crash_iff {q : Panic} :
    (crash q).Ends f env j σ o j' σ' ↔ o = .halt (.ofPanic q) ∧ j' = j ∧ σ' = σ := by
  constructor
  · rintro ⟨l, rfl, ⟨⟩⟩
    exact ⟨rfl, rfl, rfl⟩
  · rintro ⟨rfl, rfl, rfl⟩
    exact ⟨[], rfl, .crash⟩

theorem ends_once_iff {v : Any β} :
    (once v).Ends f env j σ o j' σ' ↔ o = .success v ∧ j' = j ∧ σ' = σ.tail := by
  constructor
  · rintro ⟨l, rfl, ⟨⟩⟩
    exact ⟨rfl, rfl, rfl⟩
  · rintro ⟨rfl, rfl, rfl⟩
    exact ⟨[σ.head], (Stream'.eta σ).symm, .once _⟩

theorem ends_onSuccessOnce_iff :
    (t.onSuccessOnce k).Ends f env j σ o j' σ' ↔ (t.onSuccess k).Ends f env j σ o j' σ' := by
  refine exists_congr fun l => and_congr_right' ⟨?_, .usedUp⟩
  rintro ⟨⟩
  assumption

theorem ends_loop_iff {judge : Any β → Code Ω (Option (Outcome β))} :
    (t.loop judge).Ends f env j σ o j' σ' ↔ (t.onSuccess (.again t judge)).Ends f env j σ o j' σ' := by
  refine exists_congr fun l => and_congr_right' ⟨?_, .loop⟩
  rintro ⟨⟩
  assumption

theorem ends_follow_iff : (t.follow k c).Ends f env j σ o j' σ' ↔
    (t.Ends f env j σ o j' σ' ∧ ∀ v, o ≠ c.carry v) ∨
      ∃ v j₁ σ₁, t.Ends f env j σ (c.carry v) j₁ σ₁ ∧
        (k σ₁.head.world v).Ends f env j₁ σ₁.tail o j' σ' := by
  constructor
  · rintro ⟨l, rfl, h⟩
    obtain ⟨h, hn⟩ | ⟨l₁, x, l₂, v, j₁, rfl, h, h'⟩ := evaluates_follow_iff.1 h
    · exact .inl ⟨⟨l, rfl, h⟩, hn⟩
    · exact .inr ⟨v, j₁, (x :: l₂) ++ₛ σ', ⟨l₁, Stream'.append_append_stream .., h⟩, l₂, rfl, h'⟩
  · rintro (⟨⟨l, rfl, h⟩, hn⟩ | ⟨v, j₁, σ₁, ⟨l₁, rfl, h⟩, l₂, e, h'⟩)
    · exact ⟨l, rfl, evaluates_follow_iff.2 (.inl ⟨h, hn⟩)⟩
    · refine ⟨l₁ ++ σ₁.head :: l₂, ?_, evaluates_follow_iff.2 (.inr ⟨l₁, _, l₂, v, j₁, rfl, h, h'⟩)⟩
      rw [Stream'.append_append_stream, Stream'.cons_append_stream, ← e, Stream'.eta]

theorem ends_orElse_iff : (t.orElse u).Ends f env j σ o j' σ' ↔
    (t.Ends f env j σ o j' σ' ∧ o ≠ .retry) ∨
      ∃ j₁ σ₁, t.Ends f env j σ .retry j₁ σ₁ ∧
        u.Ends f env (j₁.rollback j.checkpoint) σ₁ o j' σ' := by
  constructor
  · rintro ⟨l, rfl, h⟩
    obtain ⟨h, hn⟩ | ⟨l₁, l₂, j₁, rfl, h, h'⟩ := evaluates_orElse_iff.1 h
    · exact .inl ⟨⟨l, rfl, h⟩, hn⟩
    · exact .inr ⟨j₁, l₂ ++ₛ σ', ⟨l₁, Stream'.append_append_stream .., h⟩, l₂, rfl, h'⟩
  · rintro (⟨⟨l, rfl, h⟩, hn⟩ | ⟨j₁, _, ⟨l₁, rfl, h⟩, l₂, rfl, h'⟩)
    · exact ⟨l, rfl, evaluates_orElse_iff.2 (.inl ⟨h, hn⟩)⟩
    · exact ⟨l₁ ++ l₂, (Stream'.append_append_stream ..).symm,
        evaluates_orElse_iff.2 (.inr ⟨l₁, l₂, j₁, rfl, h, h'⟩)⟩

end Tree

theorem Machine.Ends.unique_along {f : FiberId} {m : Machine β Ω} {n n' : Nat} {l l' : List (Scene β Ω)}
    {o o' : Outcome β} {j j' : Journal β} {σ σ' : Course β Ω} (h : Ends f m n l o j)
    (h' : Ends f m n' l' o' j') (e : l ++ₛ σ = l' ++ₛ σ') : o = o' ∧ j = j' ∧ σ = σ' := by
  induction h generalizing n' l' with
  | done ho =>
    obtain ⟨-, rfl, rfl, rfl⟩ := h'.of_outcome ho
    exact ⟨rfl, rfl, e⟩
  | look x hl _ ih =>
    obtain ⟨y, l', k, rfl, -, h'⟩ := h'.of_looks hl
    obtain ⟨rfl, e'⟩ := Stream'.cons_injective2 e
    exact ih h' e'
  | quiet x ho hl _ ih =>
    obtain ⟨y, k, -, h'⟩ := h'.of_quiet ho hl
    rw [step_of_not_looks hl] at h'
    exact ih h' e

theorem Tree.Ends.unique {f : FiberId} {env : Any β} {t : Tree β Ω} {j j₁ j₂ : Journal β}
    {o₁ o₂ : Outcome β} {σ σ₁ σ₂ : Course β Ω} (h : t.Ends f env j σ o₁ j₁ σ₁)
    (h' : t.Ends f env j σ o₂ j₂ σ₂) : o₁ = o₂ ∧ j₁ = j₂ ∧ σ₁ = σ₂ := by
  have : Inhabited Ω := ⟨σ.head.world⟩
  obtain ⟨l, rfl, he⟩ := h
  obtain ⟨l', e, he'⟩ := h'
  obtain ⟨n, hn⟩ := evaluates_iff_ends.1 he
  obtain ⟨n', hn'⟩ := evaluates_iff_ends.1 he'
  exact hn.unique_along hn' e

namespace Tx

variable {R E A : Ty β}

/-- Run on a course, the transaction comes to an exit, as it is told to whoever has run it at its types, and
leaves a journal and the rest of the course. -/
def Ends (f : FiberId) (env : Any β) (t : Tx Ω R E A) (j : Journal β) (σ : Course β Ω) (o : Outcome β)
    (j' : Journal β) (σ' : Course β Ω) : Prop :=
  ∃ p, t.tree.Ends f env j σ p j' σ' ∧ p.conform E A = o

/-- The exit of the transaction and the journal that it leaves. -/
def Gives (f : FiberId) (env : Any β) (t : Tx Ω R E A) (j : Journal β) (σ : Course β Ω) (o : Outcome β)
    (j' : Journal β) : Prop :=
  ∃ σ', t.Ends f env j σ o j' σ'

theorem Ends.unique {f : FiberId} {env : Any β} {t : Tx Ω R E A} {j j₁ j₂ : Journal β} {o₁ o₂ : Outcome β}
    {σ σ₁ σ₂ : Course β Ω} (h : t.Ends f env j σ o₁ j₁ σ₁) (h' : t.Ends f env j σ o₂ j₂ σ₂) :
    o₁ = o₂ ∧ j₁ = j₂ ∧ σ₁ = σ₂ := by
  obtain ⟨p₁, h, rfl⟩ := h
  obtain ⟨p₂, h', rfl⟩ := h'
  obtain ⟨rfl, hrest⟩ := h.unique h'
  exact ⟨rfl, hrest⟩

def ofCode (c : Code Ω (Tx Ω R E A)) (ω : Ω) : Tx Ω R E A := ⟨.ofCode (tree <$> c) ω⟩

end Tx

/-- Every attempt of a commit is a run of its transaction along what the attempt has looked at, and comes to
what the transaction gives there. -/
theorem Run.gives {R E A : Ty β} {t : Tx Ω R E A} {h : History β Ω} {e : Engine β Ω} {i : CommitId}
    {c : Commit β Ω} {m : Machine β Ω} {o : Outcome β} (r : Run h e) (hc : e.commits[i]? = some c)
    (ht : c.tree = t.tree) (hm : c.phase.attempt? = some m) (ho : m.outcome? = some o) (σ : Course β Ω) :
    t.Gives c.fiber .unit {} (h.scenes i ++ₛ σ) (o.conform E A) m.journal :=
  ⟨σ, o, ⟨h.scenes i, rfl, ht ▸ r.evaluates hc hm ho⟩, rfl⟩

end TransactionalMemory
