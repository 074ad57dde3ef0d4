import TransactionalMemory.Ty

namespace TransactionalMemory

variable {β : Type} [Universe β]

/-- Equality at the type is an equivalence. -/
def Ty.Lawful (t : Ty β) : Prop := Equivalence fun u v : t.El => t.same u v = true

namespace Ty.Lawful

variable {s t : Ty β}

theorem of_beq {α : Type} [BEq α] [LawfulBEq α] : Equivalence fun u v : α => (u == v) = true := by
  simp only [beq_iff_eq]
  exact ⟨Eq.refl, Eq.symm, Eq.trans⟩

theorem list (h : t.Lawful) : (Ty.list t).Lawful := by
  refine ⟨fun (u : List t.El) => ?_, fun {u v : List t.El} huv => ?_, fun {u v w : List t.El} huv hvw => ?_⟩
  · induction u with
    | nil => rfl
    | cons a u ih => exact Bool.and_eq_true_iff.2 ⟨Equivalence.refl h a, ih⟩
  · induction u generalizing v with
    | nil => cases v <;> trivial
    | cons a u ih =>
      cases v with
      | nil => cases huv
      | cons b v =>
        obtain ⟨hab, huv⟩ := Bool.and_eq_true_iff.1 huv
        exact Bool.and_eq_true_iff.2 ⟨Equivalence.symm h hab, ih huv⟩
  · induction u generalizing v w with
    | nil => cases v <;> cases w <;> trivial
    | cons a u ih =>
      cases v with
      | nil => cases huv
      | cons b v =>
        cases w with
        | nil => cases hvw
        | cons c w =>
          obtain ⟨hab, huv⟩ := Bool.and_eq_true_iff.1 huv
          obtain ⟨hbc, hvw⟩ := Bool.and_eq_true_iff.1 hvw
          exact Bool.and_eq_true_iff.2 ⟨Equivalence.trans h hab hbc, ih huv hvw⟩

theorem option (h : t.Lawful) : (Ty.option t).Lawful := by
  refine ⟨fun (u : Option t.El) => ?_, fun {u v : Option t.El} huv => ?_,
    fun {u v w : Option t.El} huv hvw => ?_⟩
  · cases u with
    | none => rfl
    | some a => exact Equivalence.refl h a
  · cases u <;> cases v <;> first | exact Equivalence.symm h huv | trivial
  · cases u <;> cases v <;> cases w <;> first | exact Equivalence.trans h huv hvw | trivial

theorem pair (hs : s.Lawful) (ht : t.Lawful) : (Ty.pair s t).Lawful := by
  refine ⟨fun (u : s.El × t.El) => ?_, fun {u v : s.El × t.El} huv => ?_,
    fun {u v w : s.El × t.El} huv hvw => ?_⟩
  · exact Bool.and_eq_true_iff.2 ⟨Equivalence.refl hs u.1, Equivalence.refl ht u.2⟩
  · obtain ⟨h₁, h₂⟩ := Bool.and_eq_true_iff.1 huv
    exact Bool.and_eq_true_iff.2 ⟨Equivalence.symm hs h₁, Equivalence.symm ht h₂⟩
  · obtain ⟨h₁, h₂⟩ := Bool.and_eq_true_iff.1 huv
    obtain ⟨k₁, k₂⟩ := Bool.and_eq_true_iff.1 hvw
    exact Bool.and_eq_true_iff.2 ⟨Equivalence.trans hs h₁ k₁, Equivalence.trans ht h₂ k₂⟩

theorem either (hs : s.Lawful) (ht : t.Lawful) : (Ty.either s t).Lawful := by
  refine ⟨fun (u : s.El ⊕ t.El) => ?_, fun {u v : s.El ⊕ t.El} huv => ?_,
    fun {u v w : s.El ⊕ t.El} huv hvw => ?_⟩
  · cases u with
    | inl a => exact Equivalence.refl hs a
    | inr a => exact Equivalence.refl ht a
  · cases u <;> cases v <;>
      first | exact Equivalence.symm hs huv | exact Equivalence.symm ht huv | trivial
  · cases u <;> cases v <;> cases w <;>
      first | exact Equivalence.trans hs huv hvw | exact Equivalence.trans ht huv hvw | trivial

theorem result (hs : s.Lawful) (ht : t.Lawful) : (Ty.result s t).Lawful := by
  refine ⟨fun (u : Except s.El t.El) => ?_, fun {u v : Except s.El t.El} huv => ?_,
    fun {u v w : Except s.El t.El} huv hvw => ?_⟩
  · cases u with
    | error a => exact Equivalence.refl hs a
    | ok a => exact Equivalence.refl ht a
  · cases u <;> cases v <;>
      first | exact Equivalence.symm hs huv | exact Equivalence.symm ht huv | trivial
  · cases u <;> cases v <;> cases w <;>
      first | exact Equivalence.trans hs huv hvw | exact Equivalence.trans ht huv hvw | trivial

theorem of_base (h : ∀ b : β, (Ty.base b).Lawful) (t : Ty β) : t.Lawful := by
  induction t with
  | base b => exact h b
  | never | unit => exact ⟨fun _ => rfl, fun _ => rfl, fun _ _ => rfl⟩
  | bool => exact of_beq (α := Bool)
  | nat => exact of_beq (α := Nat)
  | fiber => exact of_beq (α := FiberId)
  | semaphore => exact of_beq (α := Semaphore)
  | ref t => exact of_beq (α := Ref t)
  | promise e a => exact of_beq (α := Promise e a)
  | list t ih => exact ih.list
  | option t ih => exact ih.option
  | pair s t ihs iht => exact ihs.pair iht
  | either s t ihs iht => exact ihs.either iht
  | result e a ihe iha => exact ihe.result iha

end Ty.Lawful

namespace Any

variable {a b c : Any β}

@[simp] theorem same_mk (t : Ty β) (u v : t.El) : (Any.mk t u).same ⟨t, v⟩ = t.same u v := by
  simp [same]

theorem ty_of_same (h : a.same b) : b.ty = a.ty := by
  unfold same at h
  cases hv : b.as a.ty with
  | none => simp [hv] at h
  | some v => rw [as_eq_some hv]

theorem same_refl (h : a.ty.Lawful) : a.same a := by
  obtain ⟨t, u⟩ := a
  simpa using Equivalence.refl h u

theorem same_symm (h : a.ty.Lawful) (hab : a.same b) : b.same a := by
  obtain ⟨t, u⟩ := a
  obtain ⟨t', v⟩ := b
  obtain rfl : t' = t := ty_of_same hab
  rw [same_mk] at hab ⊢
  exact Equivalence.symm h hab

theorem same_trans (h : a.ty.Lawful) (hab : a.same b) (hbc : b.same c) : a.same c := by
  obtain ⟨t, u⟩ := a
  obtain ⟨t', v⟩ := b
  obtain ⟨t'', w⟩ := c
  obtain rfl : t' = t := ty_of_same hab
  obtain rfl : t'' = t' := ty_of_same hbc
  rw [same_mk] at hab hbc ⊢
  exact Equivalence.trans h hab hbc

end Any

end TransactionalMemory
