import TransactionalMemory.Proofs.Meaning
import TransactionalMemory.Semaphore

namespace TransactionalMemory

variable {β : Type} [Universe β] {Ω : Type}

/-- What a commit is to do to the permits of a semaphore. -/
inductive Errand
  | acquire (n : Nat)
  | release (n : Nat)
  deriving DecidableEq

namespace Errand

def tx {R E : Ty β} (sem : Semaphore) : Errand → Tx Ω R E (.unit : Ty β)
  | acquire n => sem.acquire n
  | release n => sem.release n

def tree (sem : Semaphore) (a : Errand) : Tree β Ω := (a.tx sem (R := .unit) (E := .never)).tree

def taken : Errand → Nat
  | acquire n => n
  | release _ => 0

def given : Errand → Nat
  | acquire _ => 0
  | release n => n

def overflows : Errand → Nat → Bool
  | acquire _, _ => false
  | release n, v => Semaphore.limit < v + n

def outcome (v : Nat) : Errand → Outcome β
  | acquire n => if n ≤ v then .success .unit else .retry
  | release n => if v + n ≤ Semaphore.limit then .success .unit
      else .halt (.message "semaphore permit count overflowed")

def left (v : Nat) : Errand → Nat
  | acquire n => if n ≤ v then v - n else v
  | release n => if v + n ≤ Semaphore.limit then v + n else v

def next {R E : Ty β} (sem : Semaphore) (v : Nat) : Errand → Tx Ω R E (.unit : Ty β)
  | acquire n => if n ≤ v then sem.permits.set (show Nat from v - n) else .retry
  | release n => if v + n ≤ Semaphore.limit then sem.permits.set (show Nat from v + n)
      else .haltMessage "semaphore permit count overflowed"

theorem tx_eq {R E : Ty β} (sem : Semaphore) (a : Errand) :
    (a.tx sem : Tx Ω R E .unit) = sem.available.bind fun (v : Nat) => pure (a.next sem v) := by
  cases a <;> rfl

theorem next_cases {R E : Ty β} (sem : Semaphore) (v : Nat) (a : Errand) :
    (a.next sem v : Tx Ω R E .unit).tree =
        (sem.permits.set (show Nat from a.left v) : Tx Ω R E .unit).tree ∧
          (a.outcome v : Outcome β) = .success .unit ∨
      (a.next sem v : Tx Ω R E .unit).tree = .done (a.outcome v) ∧ a.left v = v := by
  cases a with
  | acquire n => by_cases h : n ≤ v <;> simp [next, left, outcome, h, Tx.retry]
  | release n =>
    by_cases h : v + n ≤ Semaphore.limit <;>
      simp [next, left, outcome, h, Tx.haltMessage, Tx.halt]

theorem tree_tx {R E : Ty β} (sem : Semaphore) (a : Errand) :
    (a.tx sem : Tx Ω R E .unit).tree = a.tree sem := by
  have h (v : Nat) : (a.next sem v : Tx Ω R E .unit).tree =
      (a.next sem v : Tx Ω .unit .never .unit).tree := by
    cases a <;> simp only [next] <;> split <;> rfl
  rw [tree, tx_eq, tx_eq]
  exact congrArg (fun k : Nat → Tree β Ω =>
    (sem.available : Tx Ω R E .nat).tree.onSuccess (Tx.cont .nat fun v => pure (k v))) (funext h)

variable {a : Errand} {v : Nat}

theorem outcome_eq_unit (ho : (a.outcome v : Outcome β) ≠ .retry) (hv : a.overflows v = false) :
    (a.outcome v : Outcome β) = .success .unit ∧ a.left v + a.taken = v + a.given := by
  cases a with
  | acquire n =>
    by_cases hn : n ≤ v
    · simp only [outcome, left, hn, if_true, taken, given, true_and]
      omega
    · exact absurd (by simp [outcome, hn]) ho
  | release n =>
    have hn : v + n ≤ Semaphore.limit := by simpa [overflows] using hv
    simp only [outcome, left, hn, if_true, taken, given, true_and]
    omega

theorem outcome_release_ne_retry (n : Nat) : ((release n).outcome v : Outcome β) ≠ .retry := by
  simp only [outcome]
  split <;> simp

end Errand

theorem Entry.set_nat {x : Entry β} {v w : Nat} (hp : x.pending = none)
    (hx : x.expected.value = ⟨.nat, v⟩) : ∃ y, x.set ⟨.nat, w⟩ = .ok y ∧
      y.expected = x.expected ∧ y.current = ⟨.nat, w⟩ := by
  have hc : x.current = ⟨.nat, v⟩ := by rw [current, hp, hx, Option.getD_none]
  have hs : (⟨.nat, v⟩ : Any β).same ⟨.nat, w⟩ = (v == w) := rfl
  by_cases h : v = w
  · subst h
    exact ⟨x, by simp [set, hc, hs], rfl, hc⟩
  · refine ⟨{ x with pending := some ⟨.nat, w⟩ }, by simp [set, hc, hx, hs, h], rfl, rfl⟩

namespace Tree.Evaluates

variable {f : FiberId} {env : Any β} {j : Journal β} {l : List (Scene β Ω)} {o : Outcome β}

theorem of_touch {j₁ : Journal β} {c : CellId} {g : Any β → Code Ω (Access β)}
    (h : (Tree.touch c g).Evaluates f env j l o j₁) : ∃ x : Scene β Ω,
      o = (j.touch x.store c fun v => g v x.world).1 ∧
        j₁ = (j.touch x.store c fun v => g v x.world).2 := by
  cases h with
  | touch x => exact ⟨x, rfl, rfl⟩

theorem of_done {j₁ : Journal β} {p : Outcome β} (h : (Tree.done p).Evaluates f env j l o j₁) :
    o = p ∧ j₁ = j := by
  unfold Tree.done at h
  cases h with
  | effect x => exact ⟨rfl, rfl⟩

theorem of_available {sem : Semaphore} {R E : Ty β}
    (h : (sem.available : Tx Ω R E .nat).tree.Evaluates f env {} l o j) : ∃ x : Scene β Ω,
      j = ({} : Journal β).put sem.cell { expected := x.store.version sem.cell } ∧
        ((∃ v : Nat, x.store.value sem.cell = ⟨.nat, v⟩ ∧ o = .success ⟨.nat, v⟩) ∨
          (x.store.value sem.cell).as .nat = none ∧ o = mismatch .nat) := by
  obtain ⟨x, ho, hj⟩ := of_touch h
  have he : ({} : Journal β).entry x.store sem.cell = { expected := x.store.version sem.cell } := by
    simp [Journal.entry]
  have hc : ({ expected := x.store.version sem.cell } : Entry β).current =
      x.store.value sem.cell := rfl
  refine ⟨x, ?_⟩
  simp only [Journal.touch, Semaphore.permits, he, hc] at ho hj
  cases hv : (x.store.value sem.cell).as .nat with
  | none =>
    rw [hv] at ho hj
    exact ⟨hj, .inr ⟨rfl, ho⟩⟩
  | some v =>
    rw [hv] at ho hj
    exact ⟨hj, .inl ⟨v, Any.as_eq_some hv, ho⟩⟩

theorem of_bind {sem : Semaphore} {R E A : Ty β} {next : Nat → Tx Ω R E A}
    (h : (sem.available.bind fun (v : Nat) => pure (next v)).tree.Evaluates f env {} l o j) :
    ∃ x : Scene β Ω, let k := ({} : Journal β).put sem.cell { expected := x.store.version sem.cell }
      (∃ (v : Nat) (l' : List (Scene β Ω)), x.store.value sem.cell = ⟨.nat, v⟩ ∧
        (next v).tree.Evaluates f env k l' o j) ∨
      (x.store.value sem.cell).as .nat = none ∧ j = k := by
  unfold Tx.bind at h
  cases h with
  | andThen y h h' =>
    obtain ⟨x, rfl, ⟨v, hv, ho⟩ | ⟨-, ho⟩⟩ := of_available h
    · cases ho
      exact ⟨x, .inl ⟨v, _, hv, h'⟩⟩
    · cases ho
  | notThen h hn =>
    obtain ⟨x, rfl, ⟨v, hv, ho⟩ | ⟨hv, -⟩⟩ := of_available h
    · exact absurd ho (hn _)
    · exact ⟨x, .inr ⟨hv, rfl⟩⟩

theorem of_set {sem : Semaphore} {R E : Ty β} {k : Journal β} {x : Entry β} {v w : Nat}
    (h : ((sem.permits.set (show Nat from w) : Tx Ω R E .unit).tree).Evaluates f env k l o j)
    (hk : k.entries[sem.cell]? = some x) (hp : x.pending = none) (hx : x.expected.value = ⟨.nat, v⟩) :
    o = .success .unit ∧ ∃ y, j.entries[sem.cell]? = some y ∧ y.expected = x.expected ∧
      y.current = ⟨.nat, w⟩ := by
  obtain ⟨z, ho, hj⟩ := of_touch h
  obtain ⟨y, hy, he, hc⟩ := Entry.set_nat (w := w) hp hx
  have ht : k.touch z.store sem.cell (fun _ => .ok (.write ⟨.nat, w⟩ .unit)) =
      (.success .unit, k.put sem.cell y) := by
    simp only [Journal.touch, Journal.entry_eq_of_getElem? hk, hy]
  refine ⟨ho.trans (congrArg Prod.fst ht), y, ?_, he, hc⟩
  rw [hj.trans (congrArg Prod.snd ht), Journal.getElem?_put, if_pos rfl]

theorem of_errand {sem : Semaphore} {a : Errand} (h : (a.tree sem).Evaluates f env {} l o j) :
    ∃ x, j.entries[sem.cell]? = some x ∧ ∀ v : Nat, x.expected.value = ⟨.nat, v⟩ →
      o = a.outcome v ∧ x.current = ⟨.nat, a.left v⟩ := by
  have seen (x : Scene β Ω) : (({} : Journal β).put sem.cell
      { expected := x.store.version sem.cell }).entries[sem.cell]? =
        some { expected := x.store.version sem.cell } := by
    rw [Journal.getElem?_put, if_pos rfl]
  -- What holds no number when it is read does not hold one afterwards.
  have stray (x : Scene β Ω) (hn : (x.store.value sem.cell).as .nat = none) (v : Nat)
      (hv : x.store.value sem.cell = ⟨.nat, v⟩) : False := by
    rw [hv] at hn
    exact absurd (Any.as_self .nat v) (by rw [hn]; exact nofun)
  rw [Errand.tree, Errand.tx_eq] at h
  obtain ⟨x, ⟨v, l', hv, h⟩ | ⟨hn, rfl⟩⟩ := of_bind h
  · obtain ⟨ht, ha⟩ | ⟨ht, ha⟩ := Errand.next_cases (β := β) (Ω := Ω) (R := .unit)
        (E := .never) sem v a
    · rw [ht] at h
      obtain ⟨rfl, y, hy, he, hc⟩ := of_set h (seen x) rfl hv
      refine ⟨y, hy, fun w hw => ?_⟩
      rw [he] at hw
      cases hv.symm.trans hw
      exact ⟨ha.symm, hc⟩
    · rw [ht] at h
      obtain ⟨rfl, rfl⟩ := of_done h
      refine ⟨_, seen x, fun w hw => ?_⟩
      cases hv.symm.trans hw
      exact ⟨rfl, ha.symm ▸ hv⟩
  · exact ⟨_, seen x, fun v hv => (stray x hn v hv).elim⟩

end Tree.Evaluates

def Tree.Leaves (c : CellId) : Tree β Ω → Prop
  | .effect _ | .make _ _ | .crash _ | .once _ => True
  | .touch d f => d = c → ∀ v ω w r, f v ω ≠ .ok (.write w r)
  | .onSuccess t k | .onSuccessOnce t k | .onFailure t k => t.Leaves c ∧ ∀ ω v, (k ω v).Leaves c
  | .onRetry t k => t.Leaves c ∧ ∀ ω, (k ω).Leaves c
  | .orElse l r => l.Leaves c ∧ r.Leaves c
  | .provide t _ | .loop t _ => t.Leaves c

def Journal.Leaves (j : Journal β) (c : CellId) : Prop :=
  ∀ x, j.entries[c]? = some x → x.pending = none

theorem Semaphore.leaves_available {R E : Ty β} (sem : Semaphore) (c : CellId) :
    (sem.available : Tx Ω R E .nat).tree.Leaves c := by
  intro _ v ω w r h
  cases hv : v.as (.nat : Ty β) <;> simp only [hv] at h <;> cases h

section Leaves

variable {j : Journal β} {s : Store β} {c d : CellId}

theorem Journal.Leaves.put {x : Entry β} (h : j.Leaves c) (hx : d = c → x.pending = none) :
    (j.put d x).Leaves c := by
  intro y hy
  rw [getElem?_put] at hy
  split at hy
  · rename_i hd
    cases hy
    exact hx hd
  · exact h y hy

theorem Journal.Leaves.entry (h : j.Leaves c) : (j.entry s c).pending = none := by
  cases hx : j.entries[c]? with
  | none =>
    rw [Journal.entry, hx]
    rfl
  | some x =>
    rw [entry_eq_of_getElem? hx]
    exact h x hx

theorem Journal.Leaves.touch (h : j.Leaves c) {f : Any β → Except Panic (Access β)}
    (hf : d = c → ∀ v w r, f v ≠ .ok (.write w r)) : (j.touch s d f).2.Leaves c := by
  have hx : d = c → (j.entry s d).pending = none := by
    rintro rfl
    exact h.entry
  unfold Journal.touch
  cases ha : f (j.entry s d).current with
  | error p => simpa only [ha] using h.put hx
  | ok a =>
    cases a with
    | leave o => simpa only [ha] using h.put hx
    | write v r =>
      have hn : d ≠ c := fun hd => hf hd _ v r ha
      cases hv : (j.entry s d).set v with
      | error why => simpa only [ha, hv] using h.put hx
      | ok y => simpa only [ha, hv] using h.put fun hd => absurd hd hn

theorem Journal.Leaves.rollback {k : Journal β} (h : j.Leaves c) :
    (k.rollback j.checkpoint).Leaves c := by
  intro x hx
  rw [getElem?_rollback, Option.map_eq_some_iff] at hx
  obtain ⟨y, -, rfl⟩ := hx
  rw [getElem?_checkpoint]
  cases hz : j.entries[c]? with
  | none => rfl
  | some z => exact h z hz

theorem Tree.leaves_again {t : Tree β Ω} {judge : Any β → Code Ω (Option (Outcome β))} {ω : Ω} {v : Any β}
    (ht : t.Leaves c) : (t.again judge ω v).Leaves c := by
  unfold again
  split
  · exact ht
  · trivial
  · trivial
  · trivial

theorem Tree.Evaluates.leaves {f : FiberId} {t : Tree β Ω} {env : Any β} {j' : Journal β}
    {l : List (Scene β Ω)} {o : Outcome β} (h : t.Evaluates f env j l o j') (ht : t.Leaves c)
    (hj : j.Leaves c) : j'.Leaves c := by
  induction h with
  | effect | crash | once | deny | denyCrash => exact hj
  | touch x => exact hj.touch fun hd v => ht hd v x.world
  | make x => exact hj.put fun _ => rfl
  | andThen x _ _ ih ih' | recover x _ _ ih ih' => exact ih' (ht.2 x.world _) (ih ht.1 hj)
  | resume x _ _ ih ih' => exact ih' (ht.2 x.world) (ih ht.1 hj)
  | notThen _ _ ih | notRecover _ _ ih | notResume _ _ ih | left _ _ ih => exact ih ht.1 hj
  | right _ _ _ ih' => exact ih' ht.2 hj.rollback
  | usedUp _ ih | provide _ _ _ ih => exact ih ht hj
  | loop _ ih => exact ih ⟨ht, fun _ _ => leaves_again ht⟩ hj

end Leaves

end TransactionalMemory
