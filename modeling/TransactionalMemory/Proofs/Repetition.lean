import Mathlib.Logic.Function.Iterate
import TransactionalMemory.Proofs.Traversal

/-! A transaction repeated until its value is accepted. The rounds are told one by one, each from the journal
that the one before leaves, and they are counted on the machine, which goes back to the same stack of frames
for each of them. -/

namespace TransactionalMemory

variable {β : Type} [Universe β] {Ω : Type}

namespace Machine

/-- Makes a step at the head of the course, and leaves the head where the step does not look at it. -/
def next (f : FiberId) (x : Machine β Ω × Course β Ω) : Machine β Ω × Course β Ω :=
  ((x.1.step f x.2.head.store x.2.head.world).1, if x.1.looks then x.2.tail else x.2)

/-- Something is under way for which the lowest `d` frames wait. -/
def Inside (d : Nat) (m : Machine β Ω) : Prop :=
  d < m.frames.length ∨ d = m.frames.length ∧ ∃ t, m.focus = .run t

inductive Goes (f : FiberId) (d : Nat) : Machine β Ω × Course β Ω → Machine β Ω × Course β Ω → Prop
  | refl : Goes f d x x
  | step : x.1.Inside d → Goes f d (next f x) y → Goes f d x y

/-- The step begins to run the tree, with `d` frames that wait for it, and nothing of the kind is under way
yet. -/
def SetsOut (f : FiberId) (d : Nat) (t : Tree β Ω) (x : Machine β Ω × Course β Ω) : Prop :=
  ¬x.1.Inside d ∧ (next f x).1.focus = .run t ∧ (next f x).1.frames.length = d

/-- From the one moment to the other, the machine sets out on the tree so many times. -/
inductive Rounds (f : FiberId) (d : Nat) (t : Tree β Ω) :
    Nat → Machine β Ω × Course β Ω → Machine β Ω × Course β Ω → Prop
  | refl : Rounds f d t 0 x x
  | pass : ¬SetsOut f d t x → Rounds f d t k (next f x) y → Rounds f d t k x y
  | setOut : SetsOut f d t x → Rounds f d t k (next f x) y → Rounds f d t (k + 1) x y

variable {f : FiberId} {d k : Nat} {m : Machine β Ω} {x y z : Machine β Ω × Course β Ω} {t u : Tree β Ω}
  {env env' : Any β} {fs : List (Frame β Ω)} {g : Frame β Ω} {j j₁ : Journal β} {o : Outcome β}
  {σ σ₁ σ₂ : Course β Ω}

theorem next_of_not_looks (h : x.1.looks = false) :
    next f x = ((x.1.step f x.2.head.store x.2.head.world).1, x.2) := by
  simp only [next, h, Bool.false_eq_true, if_false]

theorem next_of_not_takes (hg : ¬g.takes o) :
    next f (⟨.exit o, env, g :: fs, j⟩, σ) = (⟨.exit o, g.outside env, fs, j⟩, σ) := by
  cases o <;> cases g <;> first | rfl | exact absurd rfl hg

theorem inside_run : (⟨.run t, env, fs, j⟩ : Machine β Ω).Inside fs.length := .inr ⟨rfl, t, rfl⟩

theorem inside_frame {φ : Focus β Ω} : (⟨φ, env, g :: fs, j⟩ : Machine β Ω).Inside fs.length :=
  .inl (Nat.lt_succ_self _)

theorem Inside.of_succ (h : m.Inside (d + 1)) : m.Inside d := by
  obtain h | ⟨h, -⟩ := h
  · exact .inl (Nat.lt_of_succ_lt h)
  · exact .inl (Nat.lt_of_succ_le (Nat.le_of_eq h))

theorem Goes.of_succ (h : Goes f (d + 1) x y) : Goes f d x y := by
  induction h with
  | refl => exact .refl
  | step hx _ ih => exact .step hx.of_succ ih

theorem Goes.trans (h : Goes f d x y) (h' : Goes f d y z) : Goes f d x z := by
  induction h with
  | refl => exact h'
  | step hx _ ih => exact .step hx (ih h')

theorem Goes.under (hrun : next f (⟨.run u, env, fs, j⟩, σ) = (⟨.run t, env', g :: fs, j⟩, σ₁))
    (h : Goes f (g :: fs).length (⟨.run t, env', g :: fs, j⟩, σ₁) (⟨.exit o, env', g :: fs, j₁⟩, σ₂))
    (h' : Goes f fs.length (next f (⟨.exit o, env', g :: fs, j₁⟩, σ₂)) y) :
    Goes f fs.length (⟨.run u, env, fs, j⟩, σ) y :=
  .step inside_run (hrun ▸ h.of_succ.trans (.step inside_frame h'))

theorem Goes.rounds (h : Goes f d x y) (h' : Rounds f d t k y z) : Rounds f d t k x z := by
  induction h with
  | refl => exact h'
  | step hx _ ih => exact .pass (fun hs => hs.1 hx) (ih h')

theorem rounds_of_next (h : next f x = (⟨.exit o, env, fs, j⟩, σ)) :
    Rounds f d t 0 x (⟨.exit o, env, fs, j⟩, σ) := by
  refine .pass (fun hs => ?_) (h ▸ .refl)
  have hf := hs.2.1
  rw [h] at hf
  cases hf

theorem ends_of_outcome {n : Nat} (h : ((next f)^[n] x).1.outcome? = some o) :
    ∃ n l o j σ, x.2 = l ++ₛ σ ∧ Ends f x.1 n l o j := by
  induction n generalizing x with
  | zero => exact ⟨0, [], o, _, x.2, rfl, .done h⟩
  | succ n ih =>
    obtain ⟨n, l, o, j, σ, e, h⟩ := ih (x := next f x) h
    cases hx : x.1.outcome? with
    | some o => exact ⟨0, [], o, _, x.2, rfl, .done hx⟩
    | none =>
      cases hl : x.1.looks with
      | true =>
        refine ⟨n + 1, x.2.head :: l, o, j, σ, ?_, .look x.2.head hl h⟩
        rw [Stream'.cons_append_stream, ← e, next, hl, if_pos rfl, Stream'.eta]
      | false =>
        rw [next_of_not_looks hl] at e
        exact ⟨n + 1, l, o, j, σ, e, .quiet x.2.head hx hl h⟩

theorem Goes.drop (hg : ¬g.takes o) : Goes f d (next f (⟨.exit o, env, g :: fs, j⟩, σ))
    (⟨.exit o, g.outside env, fs, j⟩, σ) := by
  rw [next_of_not_takes hg]
  exact .refl

end Machine

open Machine

theorem Tree.Evaluates.goes {f : FiberId} {t : Tree β Ω} {env : Any β} {j j₁ : Journal β}
    {l : List (Scene β Ω)} {o : Outcome β} (h : t.Evaluates f env j l o j₁) (fs : List (Frame β Ω))
    (σ : Course β Ω) : Goes f fs.length (⟨.run t, env, fs, j⟩, l ++ₛ σ) (⟨.exit o, env, fs, j₁⟩, σ) := by
  induction h generalizing fs σ with
  | effect | touch | make | crash | once => exact .step inside_run .refl
  | @andThen _ _ _ _ _ _ k _ _ _ x _ _ ih ih' | @recover _ _ _ _ _ _ k _ _ _ x _ _ ih ih'
  | @resume _ _ _ _ _ k _ _ _ x _ _ ih ih' =>
    rw [Stream'.append_append_stream, Stream'.cons_append_stream]
    exact .under rfl (ih (_ :: fs) _) (ih' fs σ)
  | @notThen _ _ _ _ _ _ k _ ho ih => exact .under rfl (ih (_ :: fs) σ) (.drop (by simpa using ho))
  | @notRecover _ _ _ _ _ _ k _ ho ih => exact .under rfl (ih (_ :: fs) σ) (.drop (by simpa using ho))
  | @notResume _ _ _ _ _ _ k _ ho ih => exact .under rfl (ih (_ :: fs) σ) (.drop (by simpa using ho))
  | @right _ _ _ _ _ b _ _ _ _ _ ih ih' =>
    rw [Stream'.append_append_stream]
    exact .under rfl (ih (_ :: fs) _) (ih' fs σ)
  | @left _ _ j _ _ _ b _ ho ih => exact .under rfl (ih (_ :: fs) σ) (.drop (by simpa using ho))
  | @provide _ _ _ _ _ _ _ env x hg _ ih =>
    refine .under ?_ (ih (.restore env :: fs) σ) (.drop Frame.takes_restore)
    simp only [next, step, enter, Stream'.cons_append_stream, Stream'.head_cons, hg]
    rfl
  | deny x hg | denyCrash x hg =>
    refine .step inside_run ?_
    simp only [next, step, enter, Stream'.cons_append_stream, Stream'.head_cons, hg]
    exact .refl
  | usedUp _ ih | loop _ ih =>
    -- The machine pushes the frame of the chained tree for them, and nothing else.
    cases ih fs σ with
    | step _ h => exact .step inside_run h

namespace Tree

/-- How often the tree is run until what comes of it is an outcome by itself or by the judge. -/
inductive Repeats (f : FiberId) (env : Any β) (t : Tree β Ω) (judge : Any β → Code Ω (Option (Outcome β))) :
    Nat → Journal β → Course β Ω → Outcome β → Journal β → Course β Ω → Prop
  | ends : t.Ends f env j σ o j' σ' → (∀ v, o ≠ .success v) → Repeats f env t judge 1 j σ o j' σ'
  | judged : t.Ends f env j σ (.success v) j' σ₁ → judge v σ₁.head.world = .ok (some o) →
    Repeats f env t judge 1 j σ o j' σ₁.tail.tail
  | panics : t.Ends f env j σ (.success v) j' σ₁ → judge v σ₁.head.world = .error q →
    Repeats f env t judge 1 j σ (.halt (.ofPanic q)) j' σ₁.tail
  | again : t.Ends f env j σ (.success v) j₁ σ₁ → judge v σ₁.head.world = .ok none →
    Repeats f env t judge k j₁ σ₁.tail o j' σ' → Repeats f env t judge (k + 1) j σ o j' σ'

variable {f : FiberId} {env : Any β} {t : Tree β Ω} {judge : Any β → Code Ω (Option (Outcome β))}
  {j j' : Journal β} {σ σ' : Course β Ω} {o p : Outcome β} {k : Nat} {v : Any β} {ω : Ω} {q : Panic}

section Again

theorem again_of_none (h : judge v ω = .ok none) : t.again judge ω v = t.loop judge := by
  rw [again, h]

theorem again_of_error (h : judge v ω = .error q) : t.again judge ω v = .crash q := by
  rw [again, h]

theorem ends_again_of_some (h : judge v ω = .ok (some p)) :
    (t.again judge ω v).Ends f env j σ o j' σ' ↔ o = p ∧ j' = j ∧ σ' = σ.tail := by
  rw [again, h]
  cases p with
  | success w => exact ends_once_iff
  | failure | halt | interrupt | retry => exact ends_done_iff

theorem next_again_of_some (h : judge v ω = .ok (some p)) (fs : List (Frame β Ω)) :
    next f (⟨.run (t.again judge ω v), env, fs, j⟩, σ) = (⟨.exit p, env, fs, j⟩, σ.tail) := by
  rw [again, h]
  cases p <;> rfl

end Again

theorem ends_loop_cases : (t.loop judge).Ends f env j σ o j' σ' ↔
    (t.Ends f env j σ o j' σ' ∧ ∀ v, o ≠ .success v) ∨
      ∃ v j₁ σ₁, t.Ends f env j σ (.success v) j₁ σ₁ ∧
        (t.again judge σ₁.head.world v).Ends f env j₁ σ₁.tail o j' σ' :=
  ends_loop_iff.trans (ends_follow_iff (c := .success))

theorem Evaluates.repeats {l : List (Scene β Ω)} (h : (t.loop judge).Evaluates f env j l o j')
    (σ : Course β Ω) : ∃ k, t.Repeats f env judge k j (l ++ₛ σ) o j' σ := by
  -- What is left to be looked at gets less from round to round.
  induction hn : l.length using Nat.strongRecOn generalizing j l with
  | _ n ih =>
    cases h with
    | loop h =>
      obtain ⟨ht, hs⟩ | ⟨l₁, x, l₂, v, j₁, rfl, ht, hk⟩ := evaluates_onSuccess_iff.1 h
      · exact ⟨1, .ends ⟨l, rfl, ht⟩ hs⟩
      · rw [Stream'.append_append_stream]
        have ht : t.Ends f env j (l₁ ++ₛ ((x :: l₂) ++ₛ σ)) (.success v) j₁ ((x :: l₂) ++ₛ σ) := ⟨l₁, rfl, ht⟩
        cases hj : judge v x.world with
        | error q =>
          rw [again_of_error hj] at hk
          cases hk
          exact ⟨1, .panics ht hj⟩
        | ok r =>
          cases r with
          | some p =>
            have hk : (t.again judge x.world v).Ends f env j₁ (l₂ ++ₛ σ) o j' σ := ⟨l₂, rfl, hk⟩
            obtain ⟨rfl, rfl, e⟩ := (ends_again_of_some hj).1 hk
            have hr : t.Repeats f env judge 1 j (l₁ ++ₛ ((x :: l₂) ++ₛ σ)) o j' (l₂ ++ₛ σ).tail :=
              .judged ht hj
            rw [← e] at hr
            exact ⟨1, hr⟩
          | none =>
            rw [again_of_none hj] at hk
            have hl : l₂.length < n := by
              rw [← hn, List.length_append, List.length_cons]
              omega
            obtain ⟨k, hk⟩ := ih _ hl hk rfl
            exact ⟨k + 1, .again ht hj hk⟩

theorem Repeats.ends_loop (h : t.Repeats f env judge k j σ o j' σ') :
    (t.loop judge).Ends f env j σ o j' σ' := by
  induction h with
  | ends h ho => exact ends_loop_cases.2 (.inl ⟨h, ho⟩)
  | judged h hj => exact ends_loop_cases.2 (.inr ⟨_, _, _, h, (ends_again_of_some hj).2 ⟨rfl, rfl, rfl⟩⟩)
  | panics h hj =>
    refine ends_loop_cases.2 (.inr ⟨_, _, _, h, ?_⟩)
    rw [again_of_error hj]
    exact ends_crash_iff.2 ⟨rfl, rfl, rfl⟩
  | again h hj _ ih =>
    refine ends_loop_cases.2 (.inr ⟨_, _, _, h, ?_⟩)
    rwa [again_of_none hj]

theorem ends_loop_iff_repeats : (t.loop judge).Ends f env j σ o j' σ' ↔
    ∃ k, t.Repeats f env judge k j σ o j' σ' := by
  constructor
  · rintro ⟨l, rfl, h⟩
    exact h.repeats σ'
  · rintro ⟨k, h⟩
    exact h.ends_loop

theorem setsOut_loop (fs : List (Frame β Ω)) :
    SetsOut f (fs.length + 1) t (⟨.run (t.loop judge), env, fs, j⟩, σ) := by
  refine ⟨?_, rfl, rfl⟩
  rintro (h | ⟨h, -⟩)
  · exact absurd h (Nat.not_lt.2 (Nat.le_succ _))
  · exact absurd h (Nat.succ_ne_self _)

theorem Repeats.rounds (h : t.Repeats f env judge k j σ o j' σ') (fs : List (Frame β Ω)) :
    Rounds f (fs.length + 1) t k (⟨.run (t.loop judge), env, fs, j⟩, σ) (⟨.exit o, env, fs, j'⟩, σ') := by
  -- The frame of a round is gone when the next one begins.
  have leave {v : Any β} {j₁ : Journal β} {σ₁ : Course β Ω} : ¬SetsOut f (fs.length + 1) t
      (⟨.exit (.success v), env, .onSuccess (t.again judge) :: fs, j₁⟩, σ₁) :=
    fun hs => absurd hs.2.2 (Nat.succ_ne_self _).symm
  induction h with
  | ends h ho =>
    obtain ⟨l, rfl, h⟩ := h
    refine .setOut (setsOut_loop fs) ((h.goes (_ :: fs) _).rounds (rounds_of_next (next_of_not_takes ?_)))
    simpa using ho
  | judged h hj =>
    obtain ⟨l, rfl, h⟩ := h
    exact .setOut (setsOut_loop fs)
      ((h.goes (_ :: fs) _).rounds (.pass leave (rounds_of_next (next_again_of_some hj fs))))
  | @panics _ _ v _ σ₁ q h hj =>
    obtain ⟨l, rfl, h⟩ := h
    refine .setOut (setsOut_loop fs) ((h.goes (_ :: fs) _).rounds (.pass leave (rounds_of_next ?_)))
    show next f (⟨.run (t.again judge σ₁.head.world v), env, fs, _⟩, σ₁.tail) = _
    rw [again_of_error hj]
    rfl
  | @again _ _ v j₁ σ₁ _ _ _ _ h hj _ ih =>
    obtain ⟨l, rfl, h⟩ := h
    refine .setOut (setsOut_loop fs) ((h.goes (_ :: fs) _).rounds (.pass leave ?_))
    show Rounds f _ t _ (⟨.run (t.again judge σ₁.head.world v), env, fs, _⟩, σ₁.tail) _
    rw [again_of_none hj]
    exact ih

end Tree

namespace Tx

variable {R E A : Ty β}

/-- How often `t` is run until something else comes of it than a value that `p` rejects, and what that is.
Each run starts from the journal that the one before leaves. -/
inductive Repeats (f : FiberId) (env : Any β) (t : Tx Ω R E A) (p : A.El → Code Ω Bool) :
    Nat → Journal β → Course β Ω → Outcome β → Journal β → Prop
  | ends : t.Gives f env j σ o j' → (∀ v, o ≠ .success v) → Repeats f env t p 1 j σ o j'
  | accepts : t.Ends f env j σ (.success ⟨A, a⟩) j' σ₁ → p a σ₁.head.world = .ok true →
    Repeats f env t p 1 j σ (.success ⟨A, a⟩) j'
  | panics : t.Ends f env j σ (.success ⟨A, a⟩) j' σ₁ → p a σ₁.head.world = .error q →
    Repeats f env t p 1 j σ (.halt (.ofPanic q)) j'
  | rejects : t.Ends f env j σ (.success ⟨A, a⟩) j₁ σ₁ → p a σ₁.head.world = .ok false →
    Repeats f env t p k j₁ σ₁.tail o j' → Repeats f env t p (k + 1) j σ o j'

inductive Judges (p : A.El → Code Ω Bool) (ω : Ω) : Any β → Except Panic (Option (Outcome β)) → Prop
  | other : v.as A = none → Judges p ω v (.ok (some (mismatch A)))
  | accepts : p a ω = .ok true → Judges p ω ⟨A, a⟩ (.ok (some (.success ⟨A, a⟩)))
  | rejects : p a ω = .ok false → Judges p ω ⟨A, a⟩ (.ok none)
  | panics : p a ω = .error q → Judges p ω ⟨A, a⟩ (.error q)

variable {f : FiberId} {env : Any β} {t : Tx Ω R E A} {p : A.El → Code Ω Bool} {j j' : Journal β}
  {σ : Course β Ω} {o : Outcome β} {k : Nat}

section Judge

variable {v : Any β} {ω : Ω}

theorem judge_mk (p : A.El → Code Ω Bool) (a : A.El) (ω : Ω) : judge p ⟨A, a⟩ ω =
    (p a ω).map fun ok => if ok then some (.success ⟨A, a⟩) else none := by
  rw [judge, Any.as_self]
  rfl

theorem judge_of_none (hv : v.as A = none) : judge p v ω = .ok (some (mismatch A)) := by
  rw [judge, hv]
  rfl

theorem judge_eq_iff {r : Except Panic (Option (Outcome β))} : judge p v ω = r ↔ Judges p ω v r := by
  constructor
  · rintro rfl
    cases hv : v.as A with
    | none =>
      rw [judge_of_none hv]
      exact .other hv
    | some a =>
      obtain rfl := Any.as_eq_some hv
      rw [judge_mk]
      cases hp : p a ω with
      | error q => exact .panics hp
      | ok b =>
        cases b with
        | false => exact .rejects hp
        | true => exact .accepts hp
  · intro h
    cases h with
    | other hv => exact judge_of_none hv
    | accepts hp | rejects hp | panics hp =>
      rw [judge_mk, hp]
      rfl

end Judge

theorem repeats_iff : Repeats f env t p k j σ o j' ↔
    ∃ q σ', t.tree.Repeats f env (judge p) k j σ q j' σ' ∧ q.conform E A = o := by
  constructor
  · intro h
    induction h with
    | ends ht hn =>
      obtain ⟨σ', q, ht, rfl⟩ := ht
      by_cases hq : ∃ v, q = .success v
      · obtain ⟨v, rfl⟩ := hq
        cases hv : v.as A with
        | none =>
          exact ⟨_, _, .judged ht (judge_of_none hv), (Exit.conform_of_none (c := .success) hv).symm⟩
        | some a =>
          obtain rfl := Any.as_eq_some hv
          exact absurd (Exit.conform_value a) (hn _)
      · exact ⟨q, σ', .ends ht fun v e => hq ⟨v, e⟩, rfl⟩
    | accepts ht hp =>
      exact ⟨_, _, .judged (ends_value_iff.1 ht) (judge_eq_iff.2 (.accepts hp)), Exit.conform_value _⟩
    | panics ht hp => exact ⟨_, _, .panics (ends_value_iff.1 ht) (judge_eq_iff.2 (.panics hp)), rfl⟩
    | rejects ht hp _ ih =>
      obtain ⟨q, σ', ih, rfl⟩ := ih
      exact ⟨q, σ', .again (ends_value_iff.1 ht) (judge_eq_iff.2 (.rejects hp)) ih, rfl⟩
  · rintro ⟨q, σ', h, rfl⟩
    induction h with
    | ends ht hn =>
      exact .ends ⟨_, _, ht, rfl⟩ fun v e => hn v (Exit.eq_carry_of_conform (c := .success) e)
    | judged ht hj =>
      cases judge_eq_iff.1 hj with
      | other hv => exact .ends ⟨_, _, ht, Exit.conform_of_none (c := .success) hv⟩ nofun
      | accepts hp =>
        rw [Exit.conform_value]
        exact .accepts (ends_value_iff.2 ht) hp
    | panics ht hj =>
      cases judge_eq_iff.1 hj with
      | panics hp => exact .panics (ends_value_iff.2 ht) hp
    | again ht hj _ ih =>
      cases judge_eq_iff.1 hj with
      | rejects hp => exact .rejects (ends_value_iff.2 ht) hp ih

theorem gives_repeatUntil_iff : (t.repeatUntil p).Gives f env j σ o j' ↔
    ∃ k, Repeats f env t p k j σ o j' := by
  simp only [repeats_iff]
  constructor
  · rintro ⟨σ', q, h, rfl⟩
    obtain ⟨k, h⟩ := Tree.ends_loop_iff_repeats.1 h
    exact ⟨k, q, σ', h, rfl⟩
  · rintro ⟨k, q, σ', h, rfl⟩
    exact ⟨σ', q, Tree.ends_loop_iff_repeats.2 ⟨k, h⟩, rfl⟩

theorem Repeats.pos (h : Repeats f env t p k j σ o j') : 0 < k := by
  cases h <;> exact Nat.succ_pos _

theorem Repeats.rejected {a : A.El} {j₁ : Journal β} {σ₁ : Course β Ω} (h : Repeats f env t p k j σ o j')
    (ht : t.Ends f env j σ (.success ⟨A, a⟩) j₁ σ₁) (hp : p a σ₁.head.world = .ok false) :
    ∃ n, k = n + 1 ∧ Repeats f env t p n j₁ σ₁.tail o j' := by
  cases h with
  | ends ht' hn =>
    obtain ⟨σ', ht'⟩ := ht'
    exact absurd (ht'.unique ht).1 (hn _)
  | accepts ht' hp' | panics ht' hp' =>
    obtain ⟨e, -, rfl⟩ := ht'.unique ht
    cases e
    cases hp'.symm.trans hp
  | rejects ht' _ h =>
    obtain ⟨e, rfl, rfl⟩ := ht'.unique ht
    cases e
    exact ⟨_, rfl, h⟩

theorem Repeats.eq_one {o' : Outcome β} {j'' : Journal β} (h : Repeats f env t p 1 j σ o j')
    (h' : Repeats f env t p k j σ o' j'') : k = 1 := by
  cases h' with
  | ends | accepts | panics => rfl
  | rejects ht hp =>
    obtain ⟨n, hn, hr⟩ := h.rejected ht hp
    have := hr.pos
    omega

theorem Repeats.unique {k' : Nat} {o' : Outcome β} {j'' : Journal β} (h : Repeats f env t p k j σ o j')
    (h' : Repeats f env t p k' j σ o' j'') : k' = k := by
  induction h generalizing k' with
  | ends ht hn => exact (Repeats.ends ht hn).eq_one h'
  | accepts ht hp => exact (Repeats.accepts ht hp).eq_one h'
  | panics ht hp => exact (Repeats.panics ht hp).eq_one h'
  | rejects ht hp _ ih =>
    obtain ⟨n, rfl, hr⟩ := h'.rejected ht hp
    rw [ih hr]

section Unfolded

/-- One run, followed by its value if that is accepted, and by the whole again if not. -/
def unrolled (t : Tx Ω R E A) (p : A.El → Code Ω Bool) : Tx Ω R E A :=
  t.bind fun a => (fun ok => if ok then succeedOnce a else t.repeatUntil p) <$> p a

theorem again_judge (t : Tx Ω R E A) (p : A.El → Code Ω Bool) : t.tree.again (judge p) =
    cont A fun a => tree <$> (fun ok => if ok then succeedOnce a else t.repeatUntil p) <$> p a := by
  funext ω v
  cases hv : v.as A with
  | none =>
    rw [cont, hv, Tree.again, judge_of_none hv]
    rfl
  | some a =>
    obtain rfl := Any.as_eq_some hv
    have hk : ((fun ok => if ok then succeedOnce a else t.repeatUntil p) <$> p a) ω =
        (p a ω).map fun ok => if ok then succeedOnce a else t.repeatUntil p := rfl
    rw [cont_mk, Tree.ofCode_map, hk, Tree.again, judge_mk]
    cases p a ω with
    | error q => rfl
    | ok b => cases b <;> rfl

theorem enter_repeatUntil (t : Tx Ω R E A) (p : A.El → Code Ω Bool) (m : Machine β Ω) (f : FiberId)
    (s : Store β) (ω : Ω) :
    m.enter f s ω (t.repeatUntil p).tree = m.enter f s ω (unrolled t p).tree := by
  simp only [repeatUntil, unrolled, bind, Machine.enter, again_judge]

theorem enter_repeatUntil_interpreter (t : Tx Ω R E A) (p : A.El → Code Ω Bool) (x : Interpreter β Ω)
    (f : FiberId) (s : Store β) (ω : Ω) (n : Shots) (q : Place) :
    x.enter f s ω n q (t.repeatUntil p).tree = x.enter f s ω n q (unrolled t p).tree := by
  simp only [repeatUntil, unrolled, bind, Interpreter.enter, again_judge]

theorem repeatUntil_same (t : Tx Ω R E A) (p : A.El → Code Ω Bool) :
    (t.repeatUntil p).Same (unrolled t p) := by
  refine same_of_ends (Tree.ends_loop_iff.trans ?_)
  rw [again_judge]
  rfl

end Unfolded

theorem repeats_of_outcome {n : Nat} {q : Outcome β}
    (hq : ((next f)^[n] (⟨.run (t.repeatUntil p).tree, env, [], j⟩, σ)).1.outcome? = some q) :
    ∃ k o j', Repeats f env t p k j σ o j' := by
  have : Inhabited Ω := ⟨σ.head.world⟩
  obtain ⟨n, l, o, j', σ', e, h⟩ := ends_of_outcome hq
  obtain ⟨k, hk⟩ := gives_repeatUntil_iff.1 ⟨σ', o, ⟨l, e, Tree.evaluates_iff_ends.2 ⟨n, h⟩⟩, rfl⟩
  exact ⟨k, _, _, hk⟩

theorem reusable_repeatUntil (ht : t.tree.Reusable) : (t.repeatUntil p).tree.Reusable := fun q => ht q.inner

/-- Running a transaction until its value is accepted stops at the first run that ends in another way than
with a value to be rejected. It ends as that run does, or with the panic of the predicate, and leaves the
journal of that run. The machine sets out on the transaction once for each run, on the same stack of frames,
and if there is no such run then the machine never comes to an end. For this the loop is nothing of its own:
machine and interpreter go into it as they go into one run of the transaction that is followed by the value if
it is accepted, and by the loop if not. -/
theorem repeatUntil_repeats (f : FiberId) (env : Any β) (j : Journal β) (σ : Course β Ω) (t : Tx Ω R E A)
    (p : A.El → Code Ω Bool) :
    (t.repeatUntil p).Same (unrolled t p) ∧
    (∀ (m : Machine β Ω) (s : Store β) (ω : Ω),
      m.enter f s ω (t.repeatUntil p).tree = m.enter f s ω (unrolled t p).tree) ∧
    (∀ (x : Interpreter β Ω) (s : Store β) (ω : Ω) (n : Shots) (q : Place),
      x.enter f s ω n q (t.repeatUntil p).tree = x.enter f s ω n q (unrolled t p).tree) ∧
    (∀ o j', (t.repeatUntil p).Gives f env j σ o j' ↔ ∃ k, Repeats f env t p k j σ o j') ∧
    (∀ k o j', Repeats f env t p k j σ o j' →
      (∀ k' o' j'', Repeats f env t p k' j σ o' j'' → k' = k) ∧
      ∀ fs, ∃ q σ', q.conform E A = o ∧ Rounds f (fs.length + 1) t.tree k
        (⟨.run (t.repeatUntil p).tree, env, fs, j⟩, σ) (⟨.exit q, env, fs, j'⟩, σ')) ∧
    ((∀ k o j', ¬Repeats f env t p k j σ o j') →
      ∀ n, ((next f)^[n] (⟨.run (t.repeatUntil p).tree, env, [], j⟩, σ)).1.outcome? = none) ∧
    (∀ (P : Pool β Ω) (i : Nat) (a : Attempt β Ω) (o : Outcome β), P.Reached → P.attempts i = some a →
      t.tree.Reusable → a.tree = (t.repeatUntil p).tree → a.now.outcome? = some o →
      ∃ k, Repeats a.fiber a.env t p k a.journal (a.looks ++ₛ σ) (o.conform E A) a.now.journal) ∧
    ∀ (h : History β Ω) (e : Engine β Ω) (i : CommitId) (c : Commit β Ω) (m : Machine β Ω),
      Run h e → e.commits[i]? = some c → c.tree = (t.repeatUntil p).tree → c.phase.attempt? = some m →
      (t.tree.Reusable → h.pool.Reached ∧ h.pool.Carries i.number c.tree c.fiber m) ∧
      ∀ o, m.outcome? = some o →
        ∃ k, Repeats c.fiber .unit t p k {} (h.scenes i ++ₛ σ) (o.conform E A) m.journal := by
  refine ⟨repeatUntil_same t p, fun m s ω => enter_repeatUntil t p m f s ω,
    fun x s ω n q => enter_repeatUntil_interpreter t p x f s ω n q, fun o j' => gives_repeatUntil_iff,
    fun k o j' h => ⟨fun k' o' j'' h' => h.unique h', fun fs => ?_⟩, fun hno n => ?_, ?_, ?_⟩
  · obtain ⟨q, σ', hr, rfl⟩ := repeats_iff.1 h
    exact ⟨q, σ', rfl, hr.rounds fs⟩
  · refine Option.eq_none_iff_forall_ne_some.2 fun q hq => ?_
    obtain ⟨k, o, j', h⟩ := repeats_of_outcome hq
    exact hno k o j' h
  · intro P i a o hP ha ht hat ho
    exact gives_repeatUntil_iff.1 (hP.gives ha hat (reusable_repeatUntil ht) ho σ)
  · intro h e i c m r hc hct hm
    refine ⟨fun ht => ⟨h.reached_pool, r.interpreted hc ?_ hm⟩,
      fun o ho => gives_repeatUntil_iff.1 (r.gives hc hct hm ho σ)⟩
    rw [hct]
    exact reusable_repeatUntil ht

end Tx
end TransactionalMemory
