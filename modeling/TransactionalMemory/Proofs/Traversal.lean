import TransactionalMemory.Proofs.Fallback
import TransactionalMemory.Proofs.Pool
import TransactionalMemory.Scenario.Val
import TransactionalMemory.Tx.Sequence

namespace TransactionalMemory

variable {β : Type} [Universe β] {Ω : Type}

theorem Exit.conform_congr {E A B : Ty β} {o : Outcome β} (h : ∀ v, o ≠ .success v) :
    o.conform E A = o.conform E B := by
  cases o with
  | success v => exact absurd rfl (h v)
  | failure | halt | interrupt | retry => rfl

theorem Pool.Reached.gives {R E A : Ty β} {t : Tx Ω R E A} {P : Pool β Ω} {i : Nat} {a : Attempt β Ω}
    {o : Outcome β} (h : P.Reached) (ha : P.attempts i = some a) (ht : a.tree = t.tree)
    (hr : t.tree.Reusable) (ho : a.now.outcome? = some o) (σ : Course β Ω) :
    t.Gives a.fiber a.env a.journal (a.looks ++ₛ σ) (o.conform E A) a.now.journal := by
  have : Inhabited Ω := ⟨σ.head.world⟩
  have he := h.evaluates ha (ht ▸ hr) ho
  rw [ht] at he
  exact ⟨σ, o, ⟨a.looks, rfl, he⟩, rfl⟩

namespace Tx

variable {R E A B : Ty β} {α : Type}

/-- Every item gives a value, and the one after it starts from the journal that it leaves. The transaction of
an item is made at the look at which the one before has ended, or at which the traversal begins. -/
inductive Passes (f : FiberId) (env : Any β) (run : α → Ω → Tx Ω R E A) :
    List α → Journal β → Course β Ω → List A.El → Journal β → Course β Ω → Prop
  | nil : Passes f env run [] j σ [] j σ
  | cons : (run x σ.head.world).Ends f env j σ.tail (.success ⟨A, v⟩) j₁ σ₁ →
    Passes f env run xs j₁ σ₁ vs j' σ' → Passes f env run (x :: xs) j σ (v :: vs) j' σ'

/-- How a traversal ends: with the values of all items, or as the first item does that gives none. The items
after that one have no part in it. -/
inductive Traverses (f : FiberId) (env : Any β) (run : α → Ω → Tx Ω R E A) (xs : List α) (j : Journal β)
    (σ : Course β Ω) : Outcome β → Journal β → Prop
  | values : Passes f env run xs j σ vs j' σ' → Traverses f env run xs j σ (.success ⟨.list A, vs⟩) j'
  | stops : xs = before ++ x :: after → Passes f env run before j σ vs j₁ σ₁ →
    (run x σ₁.head.world).Gives f env j₁ σ₁.tail o j' → (∀ v, o ≠ .success v) →
    Traverses f env run xs j σ o j'

variable {f : FiberId} {env : Any β} {j j' j₁ : Journal β} {σ σ' σ₁ : Course β Ω} {o : Outcome β} {ω : Ω}

section Bind

variable {t : Tx Ω R E A} {c : Code Ω (Tx Ω R E A)} {k : A.El → Code Ω (Tx Ω R E B)}

theorem ofCode_of_ok (h : c ω = .ok t) : ofCode c ω = t := by
  show (⟨.ofCode (tree <$> c) ω⟩ : Tx Ω R E A) = t
  rw [Tree.ofCode_map, h]

theorem ofCode_of_error {p : Panic} (h : c ω = .error p) : ofCode c ω = ⟨.crash p⟩ := by
  show (⟨.ofCode (tree <$> c) ω⟩ : Tx Ω R E A) = _
  rw [Tree.ofCode_map, h]

theorem same_bindOnce : (t.bindOnce k).Same (t.bind k) := by
  intro f env j σ o j'
  exact exists_congr fun σ' => exists_congr fun p => and_congr_left' Tree.ends_onSuccessOnce_iff

theorem same_ofCode_bindOnce : (ofCode ((·.bindOnce k) <$> c) ω).Same ((ofCode c ω).bind k) := by
  cases hc : c ω with
  | ok t =>
    have hb : ((·.bindOnce k) <$> c) ω = .ok (t.bindOnce k) := congrArg (Except.map (·.bindOnce k)) hc
    rw [ofCode_of_ok hc, ofCode_of_ok hb]
    exact same_bindOnce
  | error p =>
    have hb : ((·.bindOnce k) <$> c) ω = .error p := congrArg (Except.map (·.bindOnce k)) hc
    rw [ofCode_of_error hc, ofCode_of_error hb]
    intro f env j σ o j'
    refine exists_congr fun σ' => exists_congr fun q => and_congr_left' ?_
    exact (Tree.ends_follow_of_halts (c := .success) fun h => (Tree.ends_crash_iff.1 h).1).symm

theorem gives_bind_iff : (t.bind k).Gives f env j σ o j' ↔
    (t.Gives f env j σ o j' ∧ ∀ v, o ≠ .success v) ∨
      ∃ v j₁ σ₁, t.Ends f env j σ (.success ⟨A, v⟩) j₁ σ₁ ∧
        (ofCode (k v) σ₁.head.world).Gives f env j₁ σ₁.tail o j' := by
  constructor
  · rintro ⟨σ', p, h, rfl⟩
    obtain ⟨ht, hn⟩ | ⟨w, j₁, σ₁, ht, hk⟩ := ends_bind_iff.1 h
    · exact .inl ⟨⟨σ', p, ht, Exit.conform_congr hn⟩,
        fun v e => hn v (Exit.eq_carry_of_conform (c := .success) e)⟩
    · cases hw : w.as A with
      | none =>
        -- A value of another type is told as a mismatch, whether it is followed or not.
        rw [cont, hw] at hk
        obtain ⟨rfl, rfl, rfl⟩ := Tree.ends_done_iff.1 hk
        refine .inl ⟨⟨σ₁, _, ht, Exit.conform_of_none (c := .success) hw⟩, ?_⟩
        rintro v ⟨⟩
      | some a =>
        obtain rfl := Any.as_eq_some hw
        rw [cont_mk] at hk
        exact .inr ⟨a, j₁, σ₁, ends_value_iff.2 ht, σ', p, hk, rfl⟩
  · rintro (⟨⟨σ', p, ht, rfl⟩, hn⟩ | ⟨v, j₁, σ₁, ht, σ', p, hk, rfl⟩)
    · by_cases hs : ∃ w, p = .success w
      · obtain ⟨w, rfl⟩ := hs
        cases hw : w.as A with
        | none =>
          have hk : (cont A (fun a => tree <$> k a) σ'.head.world w).Ends f env j' σ'.tail (mismatch A) j'
              σ'.tail.tail := by
            rw [cont, hw]
            exact Tree.ends_done_iff.2 ⟨rfl, rfl, rfl⟩
          exact ⟨_, mismatch A, ends_bind_iff.2 (.inr ⟨w, _, _, ht, hk⟩),
            (Exit.conform_of_none (c := .success) hw).symm⟩
        | some a =>
          obtain rfl := Any.as_eq_some hw
          exact absurd (Exit.conform_value a) (hn _)
      · have hn (v : Any β) : p ≠ .success v := fun e => hs ⟨v, e⟩
        exact ⟨σ', p, ends_bind_iff.2 (.inl ⟨ht, hn⟩), Exit.conform_congr hn⟩
    · refine ⟨σ', p, ends_bind_iff.2 (.inr ⟨_, j₁, σ₁, ends_value_iff.1 ht, ?_⟩), rfl⟩
      rw [cont_mk]
      exact hk

end Bind

theorem gives_succeedOnce_iff {a : A.El} : (succeedOnce a : Tx Ω R E A).Gives f env j σ o j' ↔
    o = .success ⟨A, a⟩ ∧ j' = j := by
  constructor
  · rintro ⟨σ', p, h, rfl⟩
    obtain ⟨rfl, rfl, -⟩ := Tree.ends_once_iff.1 h
    exact ⟨Exit.conform_value a, rfl⟩
  · rintro ⟨rfl, rfl⟩
    exact ⟨σ.tail, _, Tree.ends_once_iff.2 ⟨rfl, rfl, rfl⟩, Exit.conform_value a⟩

theorem gives_delay_iff {c : Code Ω (Tx Ω R E A)} : (delay c).Gives f env j σ o j' ↔
    (ofCode c σ.tail.head.world).Gives f env j σ.tail.tail o j' := by
  refine exists_congr fun σ' => exists_congr fun p => and_congr_left' ?_
  refine (Tree.ends_follow_iff (c := .success)).trans ?_
  simp only [Tree.ends_done_iff]
  constructor
  · rintro (⟨⟨rfl, -⟩, hn⟩ | ⟨v, j₁, σ₁, ⟨-, rfl, rfl⟩, h⟩)
    · exact absurd rfl (hn _)
    · exact h
  · exact fun h => .inr ⟨_, j, σ.tail, ⟨rfl, rfl, rfl⟩, h⟩

section Items

variable {g : α → Code Ω (Tx Ω R E A)} {xs ys : List α} {acc vs : List A.El}

theorem gives_forEachFrom_nil : (ofCode (forEachFrom g [] acc) ω).Gives f env j σ o j' ↔
    o = .success ⟨.list A, acc.reverse⟩ ∧ j' = j :=
  gives_succeedOnce_iff

theorem gives_forEachFrom_cons {x : α} : (ofCode (forEachFrom g (x :: xs) acc) ω).Gives f env j σ o j' ↔
    ((ofCode (g x) ω).Gives f env j σ o j' ∧ ∀ v, o ≠ .success v) ∨
      ∃ v j₁ σ₁, (ofCode (g x) ω).Ends f env j σ (.success ⟨A, v⟩) j₁ σ₁ ∧
        (ofCode (forEachFrom g xs (v :: acc)) σ₁.head.world).Gives f env j₁ σ₁.tail o j' :=
  (same_ofCode_bindOnce f env j σ o j').trans gives_bind_iff

theorem Passes.gives_iff (h : Passes f env (fun x => ofCode (g x)) xs j σ vs j₁ σ₁) :
    (ofCode (forEachFrom g (xs ++ ys) acc) σ.head.world).Gives f env j σ.tail o j' ↔
      (ofCode (forEachFrom g ys (vs.reverse ++ acc)) σ₁.head.world).Gives f env j₁ σ₁.tail o j' := by
  -- What has passed leaves its values to be collected, the last one first.
  induction h generalizing acc with
  | nil => rfl
  | cons hx hxs ih =>
    rw [List.cons_append, gives_forEachFrom_cons, List.reverse_cons, List.append_assoc,
      List.singleton_append, ← ih]
    constructor
    · rintro (⟨⟨σ₂, hx'⟩, hn⟩ | ⟨v, j₂, σ₂, hx', h⟩)
      · exact absurd (hx'.unique hx).1 (hn _)
      · obtain ⟨ho, rfl, rfl⟩ := hx'.unique hx
        cases ho
        exact h
    · exact fun h => .inr ⟨_, _, _, hx, h⟩

theorem gives_forEachFrom (h : (ofCode (forEachFrom g xs acc) σ.head.world).Gives f env j σ.tail o j') :
    (∃ vs σ', Passes f env (fun x => ofCode (g x)) xs j σ vs j' σ' ∧
      o = .success ⟨.list A, acc.reverse ++ vs⟩) ∨
    ∃ before x after vs j₁ σ₁, xs = before ++ x :: after ∧
      Passes f env (fun x => ofCode (g x)) before j σ vs j₁ σ₁ ∧
      (ofCode (g x) σ₁.head.world).Gives f env j₁ σ₁.tail o j' ∧ ∀ v, o ≠ .success v := by
  -- The accumulator is in front of what is still to be collected.
  induction xs generalizing acc j σ with
  | nil =>
    obtain ⟨rfl, rfl⟩ := gives_forEachFrom_nil.1 h
    exact .inl ⟨[], σ, .nil, by rw [List.append_nil]⟩
  | cons x xs ih =>
    obtain ⟨hx, hn⟩ | ⟨v, j₁, σ₁, hx, hxs⟩ := gives_forEachFrom_cons.1 h
    · exact .inr ⟨[], x, xs, [], j, σ, rfl, .nil, hx, hn⟩
    · obtain ⟨vs, σ', hp, rfl⟩ | ⟨before, y, after, vs, j₂, σ₂, rfl, hp, hy, hn⟩ := ih hxs
      · refine .inl ⟨v :: vs, σ', .cons hx hp, ?_⟩
        rw [List.reverse_cons, List.append_assoc, List.singleton_append]
      · exact .inr ⟨x :: before, y, after, v :: vs, j₂, σ₂, rfl, .cons hx hp, hy, hn⟩

theorem gives_forEach_iff : (forEach xs g).Gives f env j σ o j' ↔
    Traverses f env (fun x => ofCode (g x)) xs j σ.tail o j' := by
  refine gives_delay_iff.trans ⟨fun h => ?_, fun h => ?_⟩
  · obtain ⟨vs, σ', hp, rfl⟩ | ⟨before, x, after, vs, j₁, σ₁, hxs, hp, hx, hn⟩ := gives_forEachFrom h
    · exact .values hp
    · exact .stops hxs hp hx hn
  · cases h with
    | @values vs _ _ hp =>
      rw [← List.append_nil xs]
      refine hp.gives_iff.2 (gives_forEachFrom_nil.2 ⟨?_, rfl⟩)
      rw [List.append_nil, List.reverse_reverse]
    | stops hxs hp hx hn =>
      subst hxs
      exact hp.gives_iff.2 (gives_forEachFrom_cons.2 (.inl ⟨hx, hn⟩))

end Items

section Runs

variable {run run' : α → Ω → Tx Ω R E A} {xs : List α} {vs : List A.El}

theorem Passes.length_eq (h : Passes f env run xs j σ vs j' σ') : vs.length = xs.length := by
  induction h with
  | nil => rfl
  | cons _ _ ih => simp only [List.length_cons, ih]

theorem Passes.congr (h : Passes f env run xs j σ vs j' σ') (hrun : ∀ x ∈ xs, run' x = run x) :
    Passes f env run' xs j σ vs j' σ' := by
  induction h with
  | nil => exact .nil
  | cons hx _ ih =>
    refine .cons ?_ (ih fun x hx => hrun x (.tail _ hx))
    rw [hrun _ (.head _)]
    exact hx

end Runs

theorem reusable_forEach {xs : List α} {g : α → Code Ω (Tx Ω R E A)} : (forEach xs g).tree.Reusable :=
  fun _ => rfl

/-- A traversal runs the items from the left to the right, each from the journal that the one before leaves. It
ends as the first one that gives no value, whatever comes after that and whatever would be made of it, and with
the values of all items, one for each, if there is none. Every attempt of a commit goes through it alike, and so
does every run of the tree by an interpreter, however often the tree has been run before or is being run. -/
theorem forEach_traverses (f : FiberId) (env : Any β) (j : Journal β) (σ : Course β Ω) (xs : List α)
    (g : α → Code Ω (Tx Ω R E A)) (ts : List (Tx Ω R E A)) :
    (∀ o j', (forEach xs g).Gives f env j σ o j' ↔
      Traverses f env (fun x => ofCode (g x)) xs j σ.tail o j') ∧
    (∀ o j', (collect ts).Gives f env j σ o j' ↔ Traverses f env (fun t _ => t) ts j σ.tail o j') ∧
    (∀ vs j' σ', Passes f env (fun x => ofCode (g x)) xs j σ.tail vs j' σ' → vs.length = xs.length) ∧
    (∀ before x vs j₁ σ₁ o j', Passes f env (fun x => ofCode (g x)) before j σ.tail vs j₁ σ₁ →
      (ofCode (g x) σ₁.head.world).Gives f env j₁ σ₁.tail o j' → (∀ v, o ≠ .success v) →
      ∀ after g', (∀ y ∈ before ++ [x], g' y = g y) →
        (forEach (before ++ x :: after) g').Gives f env j σ o j') ∧
    (∀ (P : Pool β Ω) (i : Nat) (a : Attempt β Ω) (o : Outcome β), P.Reached → P.attempts i = some a →
      a.now.outcome? = some o →
      (a.tree = (forEach xs g).tree → Traverses a.fiber a.env (fun x => ofCode (g x)) xs a.journal
        (a.looks ++ₛ σ).tail (o.conform E (.list A)) a.now.journal) ∧
      (a.tree = (collect ts).tree → Traverses a.fiber a.env (fun t _ => t) ts a.journal
        (a.looks ++ₛ σ).tail (o.conform E (.list A)) a.now.journal)) ∧
    ∀ (h : History β Ω) (e : Engine β Ω) (i : CommitId) (c : Commit β Ω) (m : Machine β Ω),
      Run h e → e.commits[i]? = some c → c.tree = (forEach xs g).tree → c.phase.attempt? = some m →
      (h.pool.Reached ∧ h.pool.Carries i.number c.tree c.fiber m) ∧
      ∀ o, m.outcome? = some o → Traverses c.fiber .unit (fun x => ofCode (g x)) xs {}
        (h.scenes i ++ₛ σ).tail (o.conform E (.list A)) m.journal := by
  refine ⟨fun o j' => gives_forEach_iff, fun o j' => gives_forEach_iff, fun vs j' σ' => Passes.length_eq,
    ?_, ?_, ?_⟩
  · intro before x vs j₁ σ₁ o j' hp hx hn after g' hg
    refine gives_forEach_iff.2 (.stops rfl (hp.congr fun y hy => ?_) ?_ hn)
    · rw [hg y (List.mem_append_left _ hy)]
    · rw [hg x List.mem_append_cons_self]
      exact hx
  · intro P i a o hP ha ho
    exact ⟨fun ht => gives_forEach_iff.1 (hP.gives ha ht reusable_forEach ho σ),
      fun ht => gives_forEach_iff.1 (hP.gives ha ht reusable_forEach ho σ)⟩
  · intro h e i c m r hc ht hm
    have hr : c.tree.Reusable := ht ▸ reusable_forEach
    exact ⟨⟨h.reached_pool, r.interpreted hc hr hm⟩,
      fun o ho => gives_forEach_iff.1 (r.gives hc ht hm ho σ)⟩

-- Made ahead, and not when it is run, the traversal would be used up by its first run.
example :
    let second (t : Tx Unit (.unit : Ty Scenario.Base) .unit (.list .nat)) :=
      let P := (Pool.step · 0 ⟨{}, ()⟩)^[12] ((Pool.build {} 0 t.tree).launch 0 0 ⟨1⟩ .unit {})
      let P := (Pool.step · 1 ⟨{}, ()⟩)^[12] (P.launch 1 0 ⟨1⟩ .unit {})
      (P.attempts 1).map (·.now.outcome?)
    let g (n : Nat) : Code Unit (Tx Unit .unit .unit .nat) := pure (.succeed (show Nat from n + 1))
    second (forEach [3, 4] g) = some (some (.success ⟨.list .nat, ([4, 5] : List Nat)⟩)) ∧
      second (ofCode (forEachFrom g [3, 4] []) ()) = some (some Interpreter.resumedTwice) := by
  constructor <;> with_unfolding_all rfl

end Tx
end TransactionalMemory
