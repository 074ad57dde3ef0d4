import TransactionalMemory.Proofs.Sequencing
import TransactionalMemory.Tx.Recover

namespace TransactionalMemory

variable {β : Type} [Universe β] {Ω : Type}

def Any.ok (E : Ty β) {A : Ty β} (a : A.El) : Any β := ⟨.result E A, Except.ok a⟩

def Any.error {E : Ty β} (A : Ty β) (e : E.El) : Any β := ⟨.result E A, Except.error e⟩

namespace Exit

def Bare (o : Outcome β) : Prop := ∀ (c : Channel) (v : Any β), o ≠ c.carry v

def reify (E A : Ty β) : Outcome β → Outcome β
  | .success v => (v.as A).elim (mismatch A) fun a => .success (.ok E a)
  | .failure v => (v.as E).elim (mismatch E) fun e => .success (.error A e)
  | o => o

def reifyLooks : Outcome β → Nat
  | .success _ | .failure _ => 2
  | _ => 0

variable {E A : Ty β} {o : Outcome β} {c : Channel} {v : Any β}

theorem Bare.cases (h : o.Bare) : (∃ d, o = .halt d) ∨ (∃ f, o = .interrupt f) ∨ o = .retry := by
  cases o with
  | success v => exact absurd rfl (h .success v)
  | failure v => exact absurd rfl (h .failure v)
  | halt d => exact .inl ⟨d, rfl⟩
  | interrupt f => exact .inr (.inl ⟨f, rfl⟩)
  | retry => exact .inr (.inr rfl)

theorem Bare.conform (h : o.Bare) : o.conform E A = o := by
  obtain ⟨d, rfl⟩ | ⟨f, rfl⟩ | rfl := h.cases <;> rfl

theorem Bare.reify (h : o.Bare) : o.reify E A = o := by
  obtain ⟨d, rfl⟩ | ⟨f, rfl⟩ | rfl := h.cases <;> rfl

theorem Bare.reifyLooks (h : o.Bare) : o.reifyLooks = 0 := by
  obtain ⟨d, rfl⟩ | ⟨f, rfl⟩ | rfl := h.cases <;> rfl

theorem reifyLooks_le : o.reifyLooks ≤ 2 := by
  cases o <;> simp [reifyLooks]

theorem bare_mismatch {t : Ty β} : (mismatch t).Bare := by
  rintro (_ | _) v <;> nofun

theorem bare_retry : (.retry : Outcome β).Bare := by
  rintro (_ | _) v <;> nofun

theorem conform_value (a : A.El) : (.success ⟨A, a⟩ : Outcome β).conform E A = .success ⟨A, a⟩ :=
  if_pos rfl

theorem conform_error (e : E.El) : (.failure ⟨E, e⟩ : Outcome β).conform E A = .failure ⟨E, e⟩ :=
  if_pos rfl

theorem reify_value (a : A.El) : (.success ⟨A, a⟩ : Outcome β).reify E A = .success (.ok E a) := by
  rw [reify, Any.as_self]
  rfl

theorem reify_error (e : E.El) : (.failure ⟨E, e⟩ : Outcome β).reify E A = .success (.error A e) := by
  rw [reify, Any.as_self]
  rfl

theorem conform_of_none (h : v.as (c.ty E A) = none) :
    (c.carry v).conform E A = mismatch (c.ty E A) := by
  rw [Channel.conform_carry, h]
  rfl

theorem reify_of_none (h : v.as (c.ty E A) = none) :
    (c.carry v).reify E A = mismatch (c.ty E A) := by
  cases c with
  | success => exact congrArg (Option.elim · _ _) h
  | failure => exact congrArg (Option.elim · _ _) h

theorem reify_cases (E A : Ty β) (o : Outcome β) :
    (∃ a, o = .success ⟨A, a⟩) ∨ (∃ e, o = .failure ⟨E, e⟩) ∨
      (o.conform E A).Bare ∧ o.reify E A = o.conform E A := by
  have hnone {c : Channel} {v : Any β} (h : v.as (c.ty E A) = none) :
      ((c.carry v).conform E A).Bare ∧ (c.carry v).reify E A = (c.carry v).conform E A := by
    rw [conform_of_none h, reify_of_none h]
    exact ⟨bare_mismatch, rfl⟩
  cases o with
  | success v =>
    cases hv : v.as A with
    | none => exact .inr (.inr (hnone (c := .success) hv))
    | some a => exact .inl ⟨a, congrArg success (Any.as_eq_some hv)⟩
  | failure v =>
    cases hv : v.as E with
    | none => exact .inr (.inr (hnone (c := .failure) hv))
    | some e => exact .inr (.inl ⟨e, congrArg failure (Any.as_eq_some hv)⟩)
  | halt | interrupt | retry => exact .inr (.inr ⟨by rintro (_ | _) v <;> nofun, rfl⟩)

theorem reify_ne_failure : o.reify E A ≠ .failure v := by
  obtain ⟨a, rfl⟩ | ⟨e, rfl⟩ | ⟨hb, hr⟩ := o.reify_cases E A
  · rw [reify_value]
    exact nofun
  · rw [reify_error]
    exact nofun
  · rw [hr]
    exact hb .failure v

theorem eq_carry_of_conform (h : o.conform E A = c.carry v) : o = c.carry v := by
  obtain ⟨a, rfl⟩ | ⟨e, rfl⟩ | ⟨hb, -⟩ := o.reify_cases E A
  · rwa [conform_value] at h
  · rwa [conform_error] at h
  · exact absurd h (hb c v)

end Exit

namespace Tree

variable {f : FiberId} {env : Any β} {j j' : Journal β} {σ σ' : Course β Ω} {o : Outcome β}
  {t u : Tree β Ω} {c : Channel} {k : Ω → Any β → Tree β Ω}

theorem ends_orElse_follow_iff : ((t.orElse u).follow k c).Ends f env j σ o j' σ' ↔
    ((t.follow k c).Ends f env j σ o j' σ' ∧ ∀ j₁ σ₁, ¬t.Ends f env j σ .retry j₁ σ₁) ∨
      ∃ j₁ σ₁, t.Ends f env j σ .retry j₁ σ₁ ∧
        (u.follow k c).Ends f env (j₁.rollback j.checkpoint) σ₁ o j' σ' := by
  have hcarry (v : Any β) : c.carry v ≠ .retry := Exit.bare_retry c v |>.symm
  simp only [ends_follow_iff, ends_orElse_iff]
  constructor
  · rintro (⟨⟨ht, hr⟩ | ⟨j₁, σ₁, ht, hu⟩, hn⟩ | ⟨v, j₂, σ₂, ⟨ht, -⟩ | ⟨j₁, σ₁, ht, hu⟩, hk⟩)
    · exact .inl ⟨.inl ⟨ht, hn⟩, fun _ _ h => hr (ht.unique h).1⟩
    · exact .inr ⟨j₁, σ₁, ht, .inl ⟨hu, hn⟩⟩
    · exact .inl ⟨.inr ⟨v, j₂, σ₂, ht, hk⟩, fun _ _ h => hcarry v (ht.unique h).1⟩
    · exact .inr ⟨j₁, σ₁, ht, .inr ⟨v, j₂, σ₂, hu, hk⟩⟩
  · rintro (⟨⟨ht, hn⟩ | ⟨v, j₂, σ₂, ht, hk⟩, hr⟩ | ⟨j₁, σ₁, ht, ⟨hu, hn⟩ | ⟨v, j₂, σ₂, hu, hk⟩⟩)
    · exact .inl ⟨.inl ⟨ht, fun e => hr _ _ (e ▸ ht)⟩, hn⟩
    · exact .inr ⟨v, j₂, σ₂, .inl ⟨ht, hcarry v⟩, hk⟩
    · exact .inl ⟨.inr ⟨j₁, σ₁, ht, hu⟩, hn⟩
    · exact .inr ⟨v, j₂, σ₂, .inr ⟨j₁, σ₁, ht, hu⟩, hk⟩

end Tree

namespace Tx

variable {R E E' A B : Ty β}

/-- The transaction ends in the ways in question and in no others, and takes so many looks more at most. -/
def EndsLike (n : Nat) (f : FiberId) (env : Any β) (t : Tx Ω R E A) (j : Journal β) (σ : Course β Ω)
    (P : Outcome β → Journal β → Course β Ω → Prop) : Prop :=
  (∀ o j' σ', P o j' σ' → ∃ m ≤ n, t.Ends f env j σ o j' (σ'.drop m)) ∧
    ∀ o j' σ', t.Ends f env j σ o j' σ' → ∃ σ₁, P o j' σ₁ ∧ ∃ m ≤ n, σ' = σ₁.drop m

inductive Folds (f : FiberId) (env : Any β) (t : Tx Ω R E A) (h : E.El → Code Ω (Tx Ω R E' B))
    (k : A.El → Code Ω (Tx Ω R E' B)) (j : Journal β) (σ : Course β Ω) :
    Outcome β → Journal β → Course β Ω → Prop
  | value {a : A.El} : t.Ends f env j σ (.success ⟨A, a⟩) j₁ σ₁ →
    (ofCode (k a) (σ₁.get 2).world).Ends f env j₁ (σ₁.drop 3) o j' σ' → Folds f env t h k j σ o j' σ'
  | error {e : E.El} : t.Ends f env j σ (.failure ⟨E, e⟩) j₁ σ₁ →
    (ofCode (h e) (σ₁.get 2).world).Ends f env j₁ (σ₁.drop 3) o j' σ' → Folds f env t h k j σ o j' σ'
  | neither : t.Ends f env j σ o j' σ' → o.Bare → Folds f env t h k j σ o j' σ'

/-- What comes of one run of `a`, and of one of `b` after a failure or a retry. -/
inductive FallsBack (f : FiberId) (env : Any β) (a b : Tx Ω R E A) (j : Journal β) (σ : Course β Ω) :
    Outcome β → Journal β → Course β Ω → Prop
  -- After a failure three looks pass before `b` starts. Two are for the result that the error is put in.
  | kept : a.Ends f env j σ o j' σ' → (∀ e, o ≠ .failure e) → o ≠ .retry → FallsBack f env a b j σ o j' σ'
  | failed {e : E.El} : a.Ends f env j σ (.failure ⟨E, e⟩) j₁ σ₁ → b.Ends f env j₁ (σ₁.drop 3) o j' σ' →
    FallsBack f env a b j σ o j' σ'
  | retried : a.Ends f env j σ .retry j₁ σ₁ → b.Ends f env (j₁.rollback j.checkpoint) σ₁ o j' σ' →
    FallsBack f env a b j σ o j' σ'

def boxed (t : Tx Ω R E A) : Tx Ω R E (.result E A) := t.map fun a => pure (Except.ok a)

def onResult {α : Type} (h : E.El → α) (k : A.El → α) (r : (Ty.result E A).El) : α :=
  match (r : Except E.El A.El) with
  | .ok a => k a
  | .error e => h e

variable {f : FiberId} {env : Any β} {j j' : Journal β} {σ σ' : Course β Ω} {o : Outcome β} {ω : Ω}
  {h : E.El → Code Ω (Tx Ω R E' B)} {k : A.El → Code Ω (Tx Ω R E' B)}

theorem cont_onResult_ok {a : A.El} :
    cont (.result E A) (fun r => tree <$> onResult h k r) ω (.ok E a) = (ofCode (k a) ω).tree :=
  cont_mk

theorem cont_onResult_error {e : E.El} :
    cont (.result E A) (fun r => tree <$> onResult h k r) ω (.error A e) = (ofCode (h e) ω).tree :=
  cont_mk

theorem ends_bind_iff {t : Tx Ω R E A} {k : A.El → Code Ω (Tx Ω R E B)} :
    (t.bind k).tree.Ends f env j σ o j' σ' ↔
      (t.tree.Ends f env j σ o j' σ' ∧ ∀ v, o ≠ .success v) ∨
        ∃ v j₁ σ₁, t.tree.Ends f env j σ (.success v) j₁ σ₁ ∧
          (cont A (fun a => tree <$> k a) σ₁.head.world v).Ends f env j₁ σ₁.tail o j' σ' :=
  Tree.ends_follow_iff (c := .success)

theorem ends_boxed_iff {t : Tx Ω R E A} : t.boxed.tree.Ends f env j σ o j' σ' ↔
    (t.tree.Ends f env j σ o j' σ' ∧ ∀ v, o ≠ .success v) ∨
      ∃ v σ₁, t.tree.Ends f env j σ (.success v) j' σ₁ ∧ σ' = σ₁.drop 2 ∧
        o = (v.as A).elim (mismatch A) fun a => .success (.ok E a) :=
  Tree.ends_follow_done_iff (c := .success)

theorem ends_toResult_iff {t : Tx Ω R E A} :
    (t.toResult : Tx Ω R E' (.result E A)).tree.Ends f env j σ o j' σ' ↔
      ∃ p σ₁, t.tree.Ends f env j σ p j' σ₁ ∧ o = p.reify E A ∧ σ' = σ₁.drop p.reifyLooks := by
  refine (Tree.ends_follow_done_iff (c := .failure)).trans ⟨?_, ?_⟩
  · rintro (⟨h, hf⟩ | ⟨v, σ₁, h, rfl, rfl⟩)
    · obtain ⟨ht, hs⟩ | ⟨v, σ₁, ht, rfl, rfl⟩ := ends_boxed_iff.1 h
      · have hb : o.Bare := by
          rintro (_ | _) v
          · exact hs v
          · exact hf v
        exact ⟨o, σ', ht, hb.reify.symm, by rw [hb.reifyLooks]; rfl⟩
      · exact ⟨.success v, σ₁, ht, rfl, rfl⟩
    · obtain ⟨ht, -⟩ | ⟨w, _, -, -, hw⟩ := ends_boxed_iff.1 h
      · exact ⟨.failure v, σ₁, ht, rfl, rfl⟩
      · exact absurd hw.symm (Exit.reify_ne_failure (o := .success w))
  · rintro ⟨p, σ₁, ht, rfl, rfl⟩
    cases p with
    | success v => exact .inl ⟨ends_boxed_iff.2 (.inr ⟨v, σ₁, ht, rfl, rfl⟩), fun _ => Exit.reify_ne_failure⟩
    | failure v => exact .inr ⟨v, σ₁, ends_boxed_iff.2 (.inl ⟨ht, nofun⟩), rfl, rfl⟩
    | halt | interrupt | retry => exact .inl ⟨ends_boxed_iff.2 (.inl ⟨ht, nofun⟩), nofun⟩

theorem ends_value_iff {t : Tx Ω R E A} {a : A.El} :
    t.Ends f env j σ (.success ⟨A, a⟩) j' σ' ↔ t.tree.Ends f env j σ (.success ⟨A, a⟩) j' σ' := by
  constructor
  · rintro ⟨p, h, hp⟩
    obtain rfl := Exit.eq_carry_of_conform (c := .success) hp
    exact h
  · exact fun h => ⟨_, h, Exit.conform_value a⟩

theorem ends_error_iff {t : Tx Ω R E A} {e : E.El} :
    t.Ends f env j σ (.failure ⟨E, e⟩) j' σ' ↔ t.tree.Ends f env j σ (.failure ⟨E, e⟩) j' σ' := by
  constructor
  · rintro ⟨p, h, hp⟩
    obtain rfl := Exit.eq_carry_of_conform (c := .failure) hp
    exact h
  · exact fun h => ⟨_, h, Exit.conform_error e⟩

theorem ends_toResult_cases {t : Tx Ω R E A} :
    (t.toResult : Tx Ω R E' (.result E A)).tree.Ends f env j σ o j' σ' ↔
      (∃ a σ₁, t.Ends f env j σ (.success ⟨A, a⟩) j' σ₁ ∧ o = .success (.ok E a) ∧ σ' = σ₁.drop 2) ∨
      (∃ e σ₁, t.Ends f env j σ (.failure ⟨E, e⟩) j' σ₁ ∧ o = .success (.error A e) ∧ σ' = σ₁.drop 2) ∨
      o.Bare ∧ ∃ p σ₁, t.tree.Ends f env j σ p j' σ₁ ∧ p.conform E A = o ∧ σ' = σ₁.drop p.reifyLooks := by
  rw [ends_toResult_iff]
  constructor
  · rintro ⟨p, σ₁, ht, rfl, rfl⟩
    obtain ⟨a, rfl⟩ | ⟨e, rfl⟩ | ⟨hb, hr⟩ := p.reify_cases E A
    · exact .inl ⟨a, σ₁, ends_value_iff.2 ht, Exit.reify_value a, rfl⟩
    · exact .inr (.inl ⟨e, σ₁, ends_error_iff.2 ht, Exit.reify_error e, rfl⟩)
    · rw [hr]
      exact .inr (.inr ⟨hb, p, σ₁, ht, rfl, rfl⟩)
  · rintro (⟨a, σ₁, ht, rfl, rfl⟩ | ⟨e, σ₁, ht, rfl, rfl⟩ | ⟨hb, p, σ₁, ht, rfl, rfl⟩)
    · exact ⟨_, σ₁, ends_value_iff.1 ht, (Exit.reify_value a).symm, rfl⟩
    · exact ⟨_, σ₁, ends_error_iff.1 ht, (Exit.reify_error e).symm, rfl⟩
    · refine ⟨p, σ₁, ht, ?_, rfl⟩
      obtain ⟨a, rfl⟩ | ⟨e, rfl⟩ | ⟨-, hr⟩ := p.reify_cases E A
      · exact absurd (Exit.conform_value a) (hb .success _)
      · exact absurd (Exit.conform_error e) (hb .failure _)
      · exact hr.symm

theorem ends_foldTx_iff {t : Tx Ω R E A} : (t.foldTx h k).Ends f env j σ o j' σ' ↔
    (∃ a j₁ σ₁, t.Ends f env j σ (.success ⟨A, a⟩) j₁ σ₁ ∧
      (ofCode (k a) (σ₁.get 2).world).Ends f env j₁ (σ₁.drop 3) o j' σ') ∨
    (∃ e j₁ σ₁, t.Ends f env j σ (.failure ⟨E, e⟩) j₁ σ₁ ∧
      (ofCode (h e) (σ₁.get 2).world).Ends f env j₁ (σ₁.drop 3) o j' σ') ∨
    o.Bare ∧ ∃ p σ₁, t.tree.Ends f env j σ p j' σ₁ ∧ p.conform E A = o ∧ σ' = σ₁.drop p.reifyLooks := by
  have hbind {o j' σ'} : (t.foldTx h k).tree.Ends f env j σ o j' σ' ↔ _ :=
    ends_bind_iff (t := (t.toResult : Tx Ω R E' (.result E A))) (k := onResult h k)
  constructor
  · rintro ⟨p, hp, rfl⟩
    obtain ⟨ht, hn⟩ | ⟨w, j₁, σ₁, ht, hk⟩ := hbind.1 hp
    · obtain ⟨_, _, _, rfl, _⟩ | ⟨_, _, _, rfl, _⟩ | ⟨hb, q⟩ := ends_toResult_cases.1 ht
      · exact absurd rfl (hn _)
      · exact absurd rfl (hn _)
      · rw [hb.conform]
        exact .inr (.inr ⟨hb, q⟩)
    · obtain ⟨a, σ₂, h, hw, rfl⟩ | ⟨e, σ₂, h, hw, rfl⟩ | ⟨hb, -⟩ := ends_toResult_cases.1 ht
      · obtain rfl := Exit.success.inj hw
        rw [cont_onResult_ok] at hk
        exact .inl ⟨a, j₁, σ₂, h, p, hk, rfl⟩
      · obtain rfl := Exit.success.inj hw
        rw [cont_onResult_error] at hk
        exact .inr (.inl ⟨e, j₁, σ₂, h, p, hk, rfl⟩)
      · exact absurd rfl (hb .success w)
  · rintro (⟨a, j₁, σ₁, ht, p, hk, rfl⟩ | ⟨e, j₁, σ₁, ht, p, hh, rfl⟩ | ⟨hb, q⟩)
    · refine ⟨p, hbind.2 (.inr ⟨.ok E a, j₁, σ₁.drop 2, ?_, ?_⟩), rfl⟩
      · exact ends_toResult_cases.2 (.inl ⟨a, σ₁, ht, rfl, rfl⟩)
      · rwa [cont_onResult_ok]
    · refine ⟨p, hbind.2 (.inr ⟨.error A e, j₁, σ₁.drop 2, ?_, ?_⟩), rfl⟩
      · exact ends_toResult_cases.2 (.inr (.inl ⟨e, σ₁, ht, rfl, rfl⟩))
      · rwa [cont_onResult_error]
    · exact ⟨o, hbind.2 (.inl ⟨ends_toResult_cases.2 (.inr (.inr ⟨hb, q⟩)), hb .success⟩), hb.conform⟩

theorem foldTx_endsLike (t : Tx Ω R E A) (h : E.El → Code Ω (Tx Ω R E' B))
    (k : A.El → Code Ω (Tx Ω R E' B)) :
    (t.foldTx h k).EndsLike 2 f env j σ (Folds f env t h k j σ) := by
  constructor
  · rintro o j' σ' (⟨ht, hk⟩ | ⟨ht, hh⟩ | ⟨⟨p, ht, rfl⟩, hb⟩)
    · exact ⟨0, by simp, ends_foldTx_iff.2 (.inl ⟨_, _, _, ht, hk⟩)⟩
    · exact ⟨0, by simp, ends_foldTx_iff.2 (.inr (.inl ⟨_, _, _, ht, hh⟩))⟩
    · exact ⟨p.reifyLooks, Exit.reifyLooks_le, ends_foldTx_iff.2 (.inr (.inr ⟨hb, p, σ', ht, rfl, rfl⟩))⟩
  · intro o j' σ' hf
    obtain ⟨a, j₁, σ₁, ht, hk⟩ | ⟨e, j₁, σ₁, ht, hh⟩ | ⟨hb, p, σ₁, ht, rfl, rfl⟩ := ends_foldTx_iff.1 hf
    · exact ⟨σ', .value ht hk, 0, by simp, rfl⟩
    · exact ⟨σ', .error ht hh, 0, by simp, rfl⟩
    · exact ⟨σ₁, .neither ⟨p, ht, rfl⟩ hb, p.reifyLooks, Exit.reifyLooks_le, rfl⟩

theorem ends_succeedOnce_iff {a : A.El} {ω : Ω} :
    (ofCode (pure (succeedOnce a : Tx Ω R E A)) ω).tree.Ends f env j σ o j' σ' ↔
      o = .success ⟨A, a⟩ ∧ j' = j ∧ σ' = σ.tail :=
  Tree.ends_once_iff

theorem boxed_endsLike (t : Tx Ω R E A) (h : E.El → Code Ω (Tx Ω R E A)) :
    (t.boxed.bind (onResult h fun a => pure (succeedOnce a))).EndsLike 4 f env j σ (t.Ends f env j σ) := by
  -- A value takes two looks to be put in and two to be taken out. One of another type is found out halfway.
  constructor
  · rintro o j' σ' ⟨p, hp, rfl⟩
    by_cases hs : ∃ v, p = .success v
    · obtain ⟨v, rfl⟩ := hs
      have hm := ends_boxed_iff.2 (.inr ⟨v, σ', hp, rfl, rfl⟩)
      cases hv : v.as A with
      | none =>
        rw [hv] at hm
        exact ⟨2, by simp, mismatch A, ends_bind_iff.2 (.inl ⟨hm, nofun⟩),
          (Exit.conform_of_none (c := .success) hv).symm⟩
      | some a =>
        obtain rfl := Any.as_eq_some hv
        rw [hv] at hm
        refine ⟨4, le_rfl, .success ⟨A, a⟩, ends_bind_iff.2 (.inr ⟨.ok E a, _, _, hm, ?_⟩), rfl⟩
        rw [cont_onResult_ok]
        exact ends_succeedOnce_iff.2 ⟨rfl, rfl, rfl⟩
    · have hn (v : Any β) : p ≠ .success v := fun e => hs ⟨v, e⟩
      exact ⟨0, by simp, p, ends_bind_iff.2 (.inl ⟨ends_boxed_iff.2 (.inl ⟨hp, hn⟩), hn⟩), rfl⟩
  · rintro o j' σ' ⟨p, hp, rfl⟩
    obtain ⟨ht, hn⟩ | ⟨w, j₁, σ₂, ht, hk⟩ := ends_bind_iff.1 hp
    · obtain ⟨h', -⟩ | ⟨v, σ₁, h', rfl, rfl⟩ := ends_boxed_iff.1 ht
      · exact ⟨σ', ⟨p, h', rfl⟩, 0, by simp, rfl⟩
      · cases hv : v.as A with
        | none => exact ⟨σ₁, ⟨.success v, h', Exit.conform_of_none (c := .success) hv⟩, 2, by simp, rfl⟩
        | some a => exact absurd (by rw [hv]; rfl) (hn (.ok E a))
    · obtain ⟨-, h'⟩ | ⟨v, σ₁, h', rfl, e⟩ := ends_boxed_iff.1 ht
      · exact absurd rfl (h' w)
      · cases hv : v.as A with
        | none => rw [hv] at e; cases e
        | some a =>
          obtain rfl := Any.as_eq_some hv
          rw [hv] at e
          obtain rfl : w = .ok E a := Exit.success.inj e
          rw [cont_onResult_ok] at hk
          obtain ⟨rfl, rfl, rfl⟩ := ends_succeedOnce_iff.1 hk
          exact ⟨σ₁, ⟨_, h', rfl⟩, 4, le_rfl, rfl⟩

theorem ends_toResult_retry_iff {t : Tx Ω R E A} :
    (t.toResult : Tx Ω R E' (.result E A)).tree.Ends f env j σ .retry j' σ' ↔
      t.Ends f env j σ .retry j' σ' := by
  rw [ends_toResult_cases]
  constructor
  · rintro (⟨_, _, _, ⟨⟩, _⟩ | ⟨_, _, _, ⟨⟩, _⟩ | ⟨-, p, σ₁, h, hp, rfl⟩)
    obtain rfl := Exit.conform_eq_retry.1 hp
    exact ⟨.retry, h, rfl⟩
  · rintro ⟨p, h, hp⟩
    obtain rfl := Exit.conform_eq_retry.1 hp
    exact .inr (.inr ⟨Exit.bare_retry, .retry, σ', h, rfl, rfl⟩)

/-- Unless `a` retries, this is to go on from its result: with `b` from an error, and not at all from a
value. If it does, it is to run `b` and to take the value out of its result. -/
theorem ends_orTry_iff {a b : Tx Ω R E A} : (a.orTry b).Ends f env j σ o j' σ' ↔
    ((a.foldTx (fun _ => pure b) fun x => pure (succeedOnce x)).Ends f env j σ o j' σ' ∧
      ∀ j₁ σ₁, ¬a.Ends f env j σ .retry j₁ σ₁) ∨
    ∃ j₁ σ₁, a.Ends f env j σ .retry j₁ σ₁ ∧
      (b.boxed.bind (onResult (fun _ => pure b) fun x => pure (succeedOnce x))).Ends f env
        (j₁.rollback j.checkpoint) σ₁ o j' σ' := by
  have htree {p : Outcome β} : (a.orTry b).tree.Ends f env j σ p j' σ' ↔
      ((a.foldTx (fun _ => pure b) fun x => pure (succeedOnce x)).tree.Ends f env j σ p j' σ' ∧ _) ∨ _ :=
    Tree.ends_orElse_follow_iff (c := .success) (t := (a.toResult : Tx Ω R E (.result E A)).tree)
      (u := b.boxed.tree)
  simp only [ends_toResult_retry_iff] at htree
  constructor
  · rintro ⟨p, hp, rfl⟩
    obtain ⟨h, hr⟩ | ⟨j₁, σ₁, h, hb⟩ := htree.1 hp
    · exact .inl ⟨⟨p, h, rfl⟩, hr⟩
    · exact .inr ⟨j₁, σ₁, h, p, hb, rfl⟩
  · rintro (⟨⟨p, h, rfl⟩, hr⟩ | ⟨j₁, σ₁, h, p, hb, rfl⟩)
    · exact ⟨p, htree.2 (.inl ⟨h, hr⟩), rfl⟩
    · exact ⟨p, htree.2 (.inr ⟨j₁, σ₁, h, hb⟩), rfl⟩

theorem Ends.orTry_kept {a : Tx Ω R E A} (b : Tx Ω R E A) (h : a.Ends f env j σ o j' σ')
    (hf : ∀ e, o ≠ .failure e) (hr : o ≠ .retry) :
    ∃ m ≤ 4, (a.orTry b).Ends f env j σ o j' (σ'.drop m) := by
  have hno (j₁ : Journal β) (σ₁ : Course β Ω) : ¬a.Ends f env j σ .retry j₁ σ₁ :=
    fun h' => hr (h.unique h').1
  obtain ⟨p, hp, rfl⟩ := h
  obtain ⟨x, rfl⟩ | ⟨e, rfl⟩ | ⟨hb, -⟩ := p.reify_cases E A
  · refine ⟨4, le_rfl, ends_orTry_iff.2 (.inl ⟨ends_foldTx_iff.2 (.inl ?_), hno⟩)⟩
    rw [Exit.conform_value]
    exact ⟨x, j', σ', ends_value_iff.2 hp, _, ends_succeedOnce_iff.2 ⟨rfl, rfl, rfl⟩, Exit.conform_value x⟩
  · exact absurd (Exit.conform_error e) (hf _)
  · refine ⟨p.reifyLooks, Nat.le_trans Exit.reifyLooks_le (by simp), ends_orTry_iff.2 (.inl ⟨?_, hno⟩)⟩
    exact ends_foldTx_iff.2 (.inr (.inr ⟨hb, p, σ', hp, rfl, rfl⟩))

theorem orTry_endsLike (a b : Tx Ω R E A) :
    (a.orTry b).EndsLike 4 f env j σ (FallsBack f env a b j σ) := by
  have hbox {j : Journal β} {σ : Course β Ω} :
      (b.boxed.bind (onResult (fun _ => pure b) fun x => pure (succeedOnce x))).EndsLike 4 f env j σ
        (b.Ends f env j σ) := boxed_endsLike b fun _ => pure b
  constructor
  · rintro o j' σ' (⟨ha, hf, hr⟩ | ⟨ha, hb⟩ | ⟨ha, hb⟩)
    · exact ha.orTry_kept b hf hr
    · refine ⟨0, by simp, ends_orTry_iff.2 (.inl ⟨ends_foldTx_iff.2 (.inr (.inl ⟨_, _, _, ha, hb⟩)), ?_⟩)⟩
      exact fun _ _ h => nomatch (ha.unique h).1
    · obtain ⟨m, hm, h⟩ := hbox.1 _ _ _ hb
      exact ⟨m, hm, ends_orTry_iff.2 (.inr ⟨_, _, ha, h⟩)⟩
  · intro o j' σ' h
    obtain ⟨h, hno⟩ | ⟨j₁, σ₁, ha, hb⟩ := ends_orTry_iff.1 h
    · obtain ⟨x, j₁, σ₁, ha, q, hk, rfl⟩ | ⟨e, j₁, σ₁, ha, hb⟩ | ⟨hb, p, σ₁, ha, rfl, rfl⟩ :=
        ends_foldTx_iff.1 h
      · obtain ⟨rfl, rfl, rfl⟩ := ends_succeedOnce_iff.1 hk
        rw [Exit.conform_value]
        exact ⟨σ₁, .kept ha nofun nofun, 4, le_rfl, rfl⟩
      · exact ⟨σ', .failed ha hb, 0, by simp, rfl⟩
      · refine ⟨σ₁, .kept ⟨p, ha, rfl⟩ (hb .failure) (fun e => ?_), p.reifyLooks,
          Nat.le_trans Exit.reifyLooks_le (by simp), rfl⟩
        exact hno j' σ₁ ⟨p, ha, e⟩
    · obtain ⟨σ₂, hb, hm⟩ := hbox.2 _ _ _ hb
      exact ⟨σ₂, .retried ha hb, hm⟩

/-- To make good for a transaction runs it once, and what stands in for it or follows it once at most. The
looks not spent on these are a few at which an exit is handed on. What comes of the one that stands in or
follows is what comes of all, a failure or a retry included. -/
theorem makes_good_once (a b t : Tx Ω R E A) (h : E.El → Code Ω (Tx Ω R E' B))
    (k : A.El → Code Ω (Tx Ω R E' B)) (f : FiberId) (env : Any β) (j : Journal β) (σ : Course β Ω) :
    (a.orTry b).EndsLike 4 f env j σ (FallsBack f env a b j σ) ∧
      (t.foldTx h k).EndsLike 2 f env j σ (Folds f env t h k j σ) :=
  ⟨orTry_endsLike a b, foldTx_endsLike t h k⟩

end Tx
end TransactionalMemory
