import TransactionalMemory.Proofs.Course
import TransactionalMemory.Tx.Recover

namespace TransactionalMemory

variable {β : Type} [Universe β] {Ω : Type}

theorem Exit.conform_conform {E A : Ty β} {o : Outcome β} :
    (o.conform E A).conform E A = o.conform E A := by
  cases o with
  | success v => by_cases h : v.ty = A <;> simp [conform, mismatch, h]
  | failure v => by_cases h : v.ty = E <;> simp [conform, mismatch, h]
  | halt | interrupt | retry => rfl

theorem Tx.cont_mk {T : Ty β} {g : T.El → Code Ω (Tree β Ω)} {ω : Ω} {a : T.El} :
    cont T g ω ⟨T, a⟩ = .ofCode (g a) ω := by
  rw [cont, Any.as_self]

namespace Tree

variable {f : FiberId} {env : Any β} {j j' : Journal β} {σ σ' : Course β Ω} {o : Outcome β}
  {t : Tree β Ω} {c : Channel} {k k' : Ω → Any β → Tree β Ω} {T : Ty β}

theorem ends_done_follow_iff {a : T.El} {g : T.El → Code Ω (Tree β Ω)} :
    ((done (c.carry ⟨T, a⟩)).follow (Tx.cont T g) c).Ends f env j σ o j' σ' ↔
      (ofCode (g a) (σ.get 1).world).Ends f env j (σ.drop 2) o j' σ' := by
  -- One look is for what is handed over, and at the next one its sequel is made.
  rw [ends_follow_iff]
  simp only [ends_done_iff]
  constructor
  · rintro (⟨⟨rfl, -⟩, hn⟩ | ⟨w, j₁, σ₁, ⟨hw, rfl, rfl⟩, h⟩)
    · exact absurd rfl (hn _)
    · rwa [Channel.carry_inj.1 hw, Tx.cont_mk] at h
  · intro h
    refine .inr ⟨_, j, σ.tail, ⟨rfl, rfl, rfl⟩, ?_⟩
    rwa [Tx.cont_mk]

theorem ends_follow_follow_iff : ((t.follow k c).follow k' c).Ends f env j σ o j' σ' ↔
    (t.follow (fun ω v => (k ω v).follow k' c) c).Ends f env j σ o j' σ' := by
  simp only [ends_follow_iff]
  constructor
  · rintro (⟨⟨h, hn⟩ | ⟨v, j₁, σ₁, h, h'⟩, hn'⟩ | ⟨w, j₂, σ₂, ⟨h, hn⟩ | ⟨v, j₁, σ₁, h, h'⟩, h''⟩)
    · exact .inl ⟨h, hn⟩
    · exact .inr ⟨v, j₁, σ₁, h, .inl ⟨h', hn'⟩⟩
    · exact absurd rfl (hn w)
    · exact .inr ⟨v, j₁, σ₁, h, .inr ⟨w, j₂, σ₂, h', h''⟩⟩
  · rintro (⟨h, hn⟩ | ⟨v, j₁, σ₁, h, ⟨h', hn'⟩ | ⟨w, j₂, σ₂, h', h''⟩⟩)
    · exact .inl ⟨.inl ⟨h, hn⟩, hn⟩
    · exact .inl ⟨.inr ⟨v, j₁, σ₁, h, h'⟩, hn'⟩
    · exact .inr ⟨w, j₂, σ₂, .inr ⟨v, j₁, σ₁, h, h'⟩, h''⟩

theorem ends_follow_congr (h : ∀ ω v {j σ o j' σ'},
    (k ω v).Ends f env j σ o j' σ' ↔ (k' ω v).Ends f env j σ o j' σ') :
    (t.follow k c).Ends f env j σ o j' σ' ↔ (t.follow k' c).Ends f env j σ o j' σ' := by
  simp only [ends_follow_iff, h]

theorem ends_follow_of_halts {d : Defect} (h : ∀ {j σ o j' σ'}, t.Ends f env j σ o j' σ' → o = .halt d) :
    (t.follow k c).Ends f env j σ o j' σ' ↔ t.Ends f env j σ o j' σ' := by
  rw [ends_follow_iff]
  constructor
  · rintro (⟨ht, -⟩ | ⟨v, j₁, σ₁, ht, -⟩)
    · exact ht
    · cases c <;> cases h ht
  · intro ht
    obtain rfl := h ht
    exact .inl ⟨ht, fun v => by cases c <;> nofun⟩

theorem ends_cont_follow_iff {g : T.El → Code Ω (Tree β Ω)} {ω : Ω} {v : Any β} :
    ((Tx.cont T g ω v).follow k c).Ends f env j σ o j' σ' ↔
      (Tx.cont T (fun a => (fun t => t.follow k c) <$> g a) ω v).Ends f env j σ o j' σ' := by
  unfold Tx.cont
  cases v.as T with
  | none => exact ends_follow_of_halts fun h => (ends_done_iff.1 h).1
  | some a =>
    simp only [ofCode_map]
    unfold ofCode
    cases g a ω with
    | ok t => rfl
    | error p => exact ends_follow_of_halts fun h => (ends_crash_iff.1 h).1

theorem ends_follow_done_iff {q : T.El → Outcome β} :
    (t.follow (Tx.cont T fun a => pure (done (q a))) c).Ends f env j σ o j' σ' ↔
      (t.Ends f env j σ o j' σ' ∧ ∀ v, o ≠ c.carry v) ∨
        ∃ v σ₁, t.Ends f env j σ (c.carry v) j' σ₁ ∧ σ' = σ₁.drop 2 ∧
          o = (v.as T).elim (mismatch T) q := by
  have hcont (ω : Ω) (v : Any β) : Tx.cont T (fun a => pure (done (q a))) ω v =
      (done ((v.as T).elim (mismatch T) q) : Tree β Ω) := by
    unfold Tx.cont
    cases v.as T <;> rfl
  simp only [ends_follow_iff, hcont, ends_done_iff]
  refine or_congr_right ⟨?_, ?_⟩
  · rintro ⟨v, j₁, σ₁, h, rfl, rfl, rfl⟩
    exact ⟨v, σ₁, h, rfl, rfl⟩
  · rintro ⟨v, σ₁, h, rfl, rfl⟩
    exact ⟨v, j', σ₁, h, rfl, rfl, rfl⟩

theorem ends_follow_assoc {g : T.El → Code Ω (Tree β Ω)} :
    ((t.follow (Tx.cont T g) c).follow k c).Ends f env j σ o j' σ' ↔
      (t.follow (Tx.cont T fun a => (fun u => u.follow k c) <$> g a) c).Ends f env j σ o j' σ' :=
  ends_follow_follow_iff.trans (ends_follow_congr fun _ _ => ends_cont_follow_iff)

end Tree

namespace Tx

variable {R E E' E'' A B C : Ty β}

/-- Whoever runs them cannot tell them apart, by the exit or by the journal. -/
def Same (t u : Tx Ω R E A) : Prop :=
  ∀ f env j σ o j', t.Gives f env j σ o j' ↔ u.Gives f env j σ o j'

theorem same_of_ends {t u : Tx Ω R E A} (h : ∀ {f env j σ o j' σ'},
    t.tree.Ends f env j σ o j' σ' ↔ u.tree.Ends f env j σ o j' σ') : t.Same u := by
  intro f env j σ o j'
  simp only [Gives, Ends, h]

theorem same_follow_done (t : Tx Ω R E A) (c : Channel) :
    Same ⟨t.tree.follow (cont (c.ty E A) fun a => pure (.done (c.carry ⟨c.ty E A, a⟩))) c⟩ t := by
  intro f env j σ o j'
  constructor
  · rintro ⟨σ', p, h, rfl⟩
    obtain ⟨ht, -⟩ | ⟨v, σ₁, ht, -, rfl⟩ := Tree.ends_follow_done_iff.1 h
    · exact ⟨σ', p, ht, rfl⟩
    · refine ⟨σ₁, _, ht, ?_⟩
      rw [← Channel.conform_carry, Exit.conform_conform]
  · rintro ⟨σ', p, h, rfl⟩
    by_cases hp : ∃ v, p = c.carry v
    · obtain ⟨v, rfl⟩ := hp
      refine ⟨σ'.drop 2, _, Tree.ends_follow_done_iff.2 (.inr ⟨v, σ', h, rfl, rfl⟩), ?_⟩
      rw [← Channel.conform_carry, Exit.conform_conform]
    · exact ⟨σ', p, Tree.ends_follow_done_iff.2 (.inl ⟨h, fun v e => hp ⟨v, e⟩⟩), rfl⟩

/-- The laws of going on with a value, and the same laws for an error. What follows a thing that is there at
once takes its place two looks later: at the first the thing is handed over, at the second its sequel is
made. -/
theorem sequencing_lawful (t : Tx Ω R E A) (k : A.El → Code Ω (Tx Ω R E B))
    (k' : B.El → Code Ω (Tx Ω R E C)) (h : E.El → Code Ω (Tx Ω R E' A))
    (h' : E'.El → Code Ω (Tx Ω R E'' A)) :
    (∀ v f env j σ o j', ((succeed v : Tx Ω R E A).bind k).Gives f env j σ o j' ↔
      (ofCode (k v) (σ.get 1).world).Gives f env j (σ.drop 2) o j') ∧
    (t.bind fun a => pure (succeed a)).Same t ∧
    ((t.bind k).bind k').Same (t.bind fun a => (·.bind k') <$> k a) ∧
    (∀ e f env j σ o j', ((fail e : Tx Ω R E A).recover h).Gives f env j σ o j' ↔
      (ofCode (h e) (σ.get 1).world).Gives f env j (σ.drop 2) o j') ∧
    (t.recover fun e => pure (fail e)).Same t ∧
    ((t.recover h).recover h').Same (t.recover fun e => (·.recover h') <$> h e) := by
  refine ⟨fun v f env j σ o j' => ?_, same_follow_done t .success, same_of_ends ?_,
    fun e f env j σ o j' => ?_, same_follow_done t .failure, same_of_ends ?_⟩
  · exact exists_congr fun σ' => exists_congr fun p =>
      and_congr_left' (Tree.ends_done_follow_iff (c := .success))
  · intro f env j σ o j' σ'
    refine (Tree.ends_follow_assoc (c := .success)).trans ?_
    simp only [Tx.bind, Functor.map_map]
    rfl
  · exact exists_congr fun σ' => exists_congr fun p =>
      and_congr_left' (Tree.ends_done_follow_iff (c := .failure))
  · intro f env j σ o j' σ'
    refine (Tree.ends_follow_assoc (c := .failure)).trans ?_
    simp only [Tx.recover, Functor.map_map]
    rfl

end Tx
end TransactionalMemory
