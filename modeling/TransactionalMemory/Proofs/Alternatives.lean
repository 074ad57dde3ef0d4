import TransactionalMemory.Proofs.Operations
import TransactionalMemory.Proofs.Rollback
import TransactionalMemory.Proofs.Sequencing
import TransactionalMemory.Proofs.Writes

namespace TransactionalMemory

variable {β : Type} [Universe β] {Ω : Type}

namespace Journal

def Within (j k : Journal β) : Prop := ∀ c : CellId, k.entries[c]? = none → j.entries[c]? = none

variable {j j₁ j₂ : Journal β} {c : CellId}

theorem Within.refl : j.Within j := fun _ h => h

theorem Within.trans (h : j.Within j₁) (h' : j₁.Within j₂) : j.Within j₂ := fun c hc => h c (h' c hc)

theorem within_put {x : Entry β} : j.Within (j.put c x) := by
  intro d hd
  rw [getElem?_put] at hd
  split at hd
  · cases hd
  · exact hd

theorem within_touch {s : Store β} (f : Any β → Except Panic (Access β)) :
    j.Within (j.touch s c f).2 := by
  obtain ⟨p, e⟩ := touch_eq_put (j := j) (s := s) (c := c) f
  rw [e]
  exact within_put

theorem within_rollback {k : Checkpoint β} : j.Within (j.rollback k) :=
  fun _ => (extends_rollback k).getElem?_eq_none

theorem ext_pending (h : j.Extends j₁) (h' : j₁.Extends j) (hp : ∀ c, j.pending c = j₁.pending c) :
    j = j₁ := by
  refine ext fun c => ?_
  cases hc : j.entries[c]? with
  | none => exact (h'.getElem?_eq_none hc).symm
  | some x =>
    obtain ⟨p, hx⟩ := h c x hc
    have hpen := hp c
    simp only [pending, hc, hx, Option.bind_some] at hpen
    rw [hx, ← hpen]

theorem Within.pending_rollback (h : j.Within j₁) :
    (j₁.rollback j.checkpoint).pending c = j.pending c := by
  unfold pending
  rw [getElem?_rollback, getElem?_checkpoint]
  cases hc : j₁.entries[c]? with
  | none => rw [h c hc]; rfl
  | some x => cases j.entries[c]? <;> rfl

theorem Within.rollback_rollback_checkpoint (h : j.Within j₁) :
    j₂.rollback (j₁.rollback j.checkpoint).checkpoint = j₂.rollback j.checkpoint := by
  have hsame (c : CellId) :
      ((j₁.rollback j.checkpoint).checkpoint[c]?).join = (j.checkpoint[c]?).join := by
    rw [getElem?_checkpoint, getElem?_rollback, getElem?_checkpoint]
    cases hc : j₁.entries[c]? with
    | none => rw [h c hc]; rfl
    | some x => rfl
  refine ext fun c => ?_
  simp only [getElem?_rollback, hsame]

end Journal

namespace Tree

variable {f : FiberId} {env : Any β} {j j' : Journal β} {l : List (Scene β Ω)} {σ σ' : Course β Ω}
  {o : Outcome β} {t a b c : Tree β Ω}

theorem Evaluates.within (h : t.Evaluates f env j l o j') : j.Within j' := by
  induction h with
  | touch x => exact Journal.within_touch _
  | make x => exact Journal.within_put
  | effect | crash | once | deny | denyCrash => exact .refl
  | andThen _ _ _ ih ih' | recover _ _ _ ih ih' | resume _ _ _ ih ih' => exact ih.trans ih'
  | right _ _ ih ih' => exact (ih.trans Journal.within_rollback).trans ih'
  | notThen _ _ ih | notRecover _ _ ih | notResume _ _ ih | left _ _ ih | provide _ _ _ ih | usedUp _ ih
  | loop _ ih => exact ih

theorem Ends.within (h : t.Ends f env j σ o j' σ') : j.Within j' := by
  obtain ⟨_, _, h⟩ := h
  exact h.within

theorem ends_orElse_assoc : ((a.orElse b).orElse c).Ends f env j σ o j' σ' ↔
    (a.orElse (b.orElse c)).Ends f env j σ o j' σ' := by
  -- The inner alternative takes its checkpoint where the first tree has been taken back, among entries that
  -- the first tree has left. It goes back to the same writes.
  -- How often one goes back makes no difference, since no entry is lost on the way.
  have hback {j₁ j₂ : Journal β} {σ₁ : Course β Ω} (h : a.Ends f env j σ .retry j₁ σ₁) :
      j₂.rollback (j₁.rollback j.checkpoint).checkpoint = j₂.rollback j.checkpoint :=
    h.within.rollback_rollback_checkpoint
  simp only [ends_orElse_iff]
  constructor
  · rintro (⟨⟨ha, -⟩ | ⟨j₁, σ₁, ha, hb⟩, hn⟩ | ⟨j₂, σ₂, ⟨-, hn⟩ | ⟨j₁, σ₁, ha, hb⟩, hc⟩)
    · exact .inl ⟨ha, hn⟩
    · exact .inr ⟨j₁, σ₁, ha, .inl ⟨hb, hn⟩⟩
    · exact absurd rfl hn
    · exact .inr ⟨j₁, σ₁, ha, .inr ⟨j₂, σ₂, hb, by rwa [hback ha]⟩⟩
  · rintro (⟨ha, hn⟩ | ⟨j₁, σ₁, ha, ⟨hb, hn⟩ | ⟨j₂, σ₂, hb, hc⟩⟩)
    · exact .inl ⟨.inl ⟨ha, hn⟩, hn⟩
    · exact .inl ⟨.inr ⟨j₁, σ₁, ha, hb⟩, hn⟩
    · exact .inr ⟨j₂, σ₂, .inr ⟨j₁, σ₁, ha, hb⟩, by rwa [hback ha] at hc⟩

end Tree

namespace Tx

variable {R E A : Ty β} {f : FiberId} {env : Any β} {j j' : Journal β} {σ : Course β Ω} {o : Outcome β}

theorem Gives.within {t : Tx Ω R E A} (h : t.Gives f env j σ o j') : j.Within j' := by
  obtain ⟨_, _, h, -⟩ := h
  exact h.within

theorem Same.refl (t : Tx Ω R E A) : t.Same t := fun _ _ _ _ _ _ => .rfl

theorem Same.trans {t u v : Tx Ω R E A} (h : t.Same u) (h' : u.Same v) : t.Same v :=
  fun f env j σ o j' => (h f env j σ o j').trans (h' f env j σ o j')

theorem orElse_assoc (a b c : Tx Ω R E A) :
    ((a.orElse b).orElse c).Same (a.orElse (b.orElse c)) :=
  same_of_ends Tree.ends_orElse_assoc

theorem gives_orElse_iff {t u : Tx Ω R E A} : (t.orElse u).Gives f env j σ o j' ↔
    (t.Gives f env j σ o j' ∧ o ≠ .retry) ∨
      ∃ j₁ σ₁, t.Ends f env j σ .retry j₁ σ₁ ∧ u.Gives f env (j₁.rollback j.checkpoint) σ₁ o j' := by
  constructor
  · rintro ⟨σ', p, h, rfl⟩
    obtain ⟨h, hn⟩ | ⟨j₁, σ₁, h, h'⟩ := Tree.ends_orElse_iff.1 h
    · exact .inl ⟨⟨σ', p, h, rfl⟩, mt Exit.conform_eq_retry.1 hn⟩
    · exact .inr ⟨j₁, σ₁, ⟨.retry, h, rfl⟩, σ', p, h', rfl⟩
  · rintro (⟨⟨σ', p, h, rfl⟩, hn⟩ | ⟨j₁, σ₁, ⟨p, h, hp⟩, σ', q, h', rfl⟩)
    · exact ⟨σ', p, Tree.ends_orElse_iff.2 (.inl ⟨h, mt Exit.conform_eq_retry.2 hn⟩), rfl⟩
    · obtain rfl := Exit.conform_eq_retry.1 hp
      exact ⟨σ', q, Tree.ends_orElse_iff.2 (.inr ⟨j₁, σ₁, h, h'⟩), rfl⟩

theorem ends_retry_iff {σ' : Course β Ω} :
    (retry : Tx Ω R E A).Ends f env j σ o j' σ' ↔ o = .retry ∧ j' = j ∧ σ' = σ.tail := by
  constructor
  · rintro ⟨p, h, rfl⟩
    obtain ⟨rfl, rfl, rfl⟩ := Tree.ends_done_iff.1 h
    exact ⟨rfl, rfl, rfl⟩
  · rintro ⟨rfl, rfl, rfl⟩
    exact ⟨.retry, Tree.ends_done_iff.2 ⟨rfl, rfl, rfl⟩, rfl⟩

theorem gives_retry_orElse_iff {u : Tx Ω R E A} :
    ((retry : Tx Ω R E A).orElse u).Gives f env j σ o j' ↔ u.Gives f env j σ.tail o j' := by
  rw [gives_orElse_iff]
  constructor
  · rintro (⟨⟨σ', h⟩, hn⟩ | ⟨j₁, σ₁, h, h'⟩)
    · exact absurd (ends_retry_iff.1 h).1 hn
    · obtain ⟨-, rfl, rfl⟩ := ends_retry_iff.1 h
      rwa [Journal.rollback_checkpoint] at h'
  · intro h
    refine .inr ⟨j, σ.tail, ends_retry_iff.2 ⟨rfl, rfl, rfl⟩, ?_⟩
    rwa [Journal.rollback_checkpoint]

theorem gives_orElse_retry_iff {t : Tx Ω R E A} : (t.orElse retry).Gives f env j σ o j' ↔
    (t.Gives f env j σ o j' ∧ o ≠ .retry) ∨
      ∃ j₁, t.Gives f env j σ .retry j₁ ∧ o = .retry ∧ j' = j₁.rollback j.checkpoint := by
  rw [gives_orElse_iff]
  refine or_congr_right ⟨?_, ?_⟩
  · rintro ⟨j₁, σ₁, h, σ', h'⟩
    obtain ⟨rfl, rfl, -⟩ := ends_retry_iff.1 h'
    exact ⟨j₁, ⟨σ₁, h⟩, rfl, rfl⟩
  · rintro ⟨j₁, ⟨σ₁, h⟩, rfl, rfl⟩
    exact ⟨j₁, σ₁, h, σ₁.tail, ends_retry_iff.2 ⟨rfl, rfl, rfl⟩⟩

def firstOf : Tx Ω R E A → List (Tx Ω R E A) → Tx Ω R E A
  | t, [] => t
  | t, u :: us => t.orElse (firstOf u us)

theorem same_firstOf_orElse (t u : Tx Ω R E A) (us : List (Tx Ω R E A)) :
    (firstOf (t.orElse u) us).Same (firstOf t (u :: us)) := by
  cases us with
  | nil => exact .refl _
  | cons v vs => exact orElse_assoc t u (firstOf v vs)

theorem same_foldl_orElse (t : Tx Ω R E A) (us : List (Tx Ω R E A)) :
    (us.foldl orElse t).Same (firstOf t us) := by
  induction us generalizing t with
  | nil => exact .refl _
  | cons u us ih => exact (ih (t.orElse u)).trans (same_firstOf_orElse t u us)

/-- Alternatives form a monoid with giving up as its unit, as far as exits and the writes of those that do
not retry go. Where the first one retries, to give up after it only takes back what it wrote. However many
alternatives there are, it does not matter from which side they are put together. -/
theorem alternatives_lawful (a b c : Tx Ω R E A) :
    ((a.orElse b).orElse c).Same (a.orElse (b.orElse c)) ∧
    (∀ f env j σ o j', ((retry : Tx Ω R E A).orElse b).Gives f env j σ o j' ↔
      b.Gives f env j σ.tail o j') ∧
    (∀ f env j σ o j', (a.orElse retry).Gives f env j σ o j' ↔
      ∃ j₁, a.Gives f env j σ o j₁ ∧ j₁.Extends j' ∧ j'.Extends j₁ ∧ (o ≠ .retry → j' = j₁) ∧
        (o = .retry → ∀ c, j'.pending c = j.pending c)) ∧
    ∀ ts : List (Tx Ω R E A), (ts.foldl orElse a).Same (firstOf a ts) := by
  refine ⟨orElse_assoc a b c, fun f env j σ o j' => gives_retry_orElse_iff, fun f env j σ o j' => ?_,
    same_foldl_orElse a⟩
  rw [gives_orElse_retry_iff]
  constructor
  · rintro (⟨h, hn⟩ | ⟨j₁, h, rfl, rfl⟩)
    · exact ⟨j', h, .refl, .refl, fun _ => rfl, fun e => absurd e hn⟩
    · exact ⟨j₁, h, Journal.extends_rollback _, Journal.rollback_extends, fun hn => absurd rfl hn,
        fun _ _ => h.within.pending_rollback⟩
  · rintro ⟨j₁, h, hj, hj', hne, heq⟩
    by_cases ho : o = .retry
    · subst ho
      refine .inr ⟨j₁, h, rfl, Journal.ext_pending (hj'.trans (Journal.extends_rollback _))
        (Journal.rollback_extends.trans hj) fun c => ?_⟩
      rw [heq rfl, h.within.pending_rollback]
    · obtain rfl := hne ho
      exact .inl ⟨h, ho⟩

end Tx
end TransactionalMemory
