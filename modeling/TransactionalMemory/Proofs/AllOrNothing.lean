import TransactionalMemory.Journal.Publish
import TransactionalMemory.Proofs.Operations
import TransactionalMemory.Proofs.Recovery
import TransactionalMemory.Scenario.Val
import TransactionalMemory.Semaphore

namespace TransactionalMemory

variable {β : Type} [Universe β] {Ω : Type}

/-- What can be done with a cell through a reference, a view of any depth or a semaphore. -/
inductive Tree.Operates : CellId → Tree β Ω → Prop
  | get (r : Ref A) : Operates r.cell (r.get : Tx Ω R E A).tree
  | set (r : Ref A) (a : A.El) : Operates r.cell (r.set a : Tx Ω R E .unit).tree
  | modify (r : Ref A) (g : A.El → Code Ω (B.El × A.El)) :
    Operates r.cell (r.modify g : Tx Ω R E B).tree
  | update (r : Ref A) (g : A.El → Code Ω A.El) : Operates r.cell (r.update g : Tx Ω R E .unit).tree
  | getAndSet (r : Ref A) (a : A.El) : Operates r.cell (r.getAndSet a : Tx Ω R E A).tree
  | getAndUpdate (r : Ref A) (g : A.El → Code Ω A.El) :
    Operates r.cell (r.getAndUpdate g : Tx Ω R E A).tree
  | updateAndGet (r : Ref A) (g : A.El → Code Ω A.El) :
    Operates r.cell (r.updateAndGet g : Tx Ω R E A).tree
  | modifySome (r : Ref A) (default : B.El) (g : A.El → Code Ω (Option (B.El × A.El))) :
    Operates r.cell (r.modifySome default g : Tx Ω R E B).tree
  | updateSome (r : Ref A) (g : A.El → Code Ω (Option A.El)) :
    Operates r.cell (r.updateSome g : Tx Ω R E .unit).tree
  | getAndUpdateSome (r : Ref A) (g : A.El → Code Ω (Option A.El)) :
    Operates r.cell (r.getAndUpdateSome g : Tx Ω R E A).tree
  | updateSomeAndGet (r : Ref A) (g : A.El → Code Ω (Option A.El)) :
    Operates r.cell (r.updateSomeAndGet g : Tx Ω R E A).tree
  | view {v : View Ω S E F A B} {t : Tree β Ω} : v.Performs R t → Operates v.ref.cell t
  | available (s : Semaphore) : Operates s.cell (s.available : Tx Ω R E .nat).tree
  | acquire (s : Semaphore) (n : Nat) : Operates s.cell (s.acquire n : Tx Ω R E .unit).tree
  | release (s : Semaphore) (n : Nat) : Operates s.cell (s.release n : Tx Ω R E .unit).tree

namespace Journal

variable {j j₁ j' : Journal β} {s : Store β} {c d : CellId} {l l' : List (Scene β Ω)}

def Meets (c : CellId) (l : List (Scene β Ω)) (j j' : Journal β) : Prop :=
  j' = j ∨ j.entries[c]? = none ∧ ∃ x ∈ l, j' = j.put c { expected := x.store.version c }

theorem meets_put_entry (x : Scene β Ω) : j.Meets c [x] (j.put c (j.entry x.store c)) := by
  cases h : j.entries[c]? with
  | none => exact .inr ⟨h, x, List.mem_singleton_self x, by simp [entry, h]⟩
  | some y =>
    refine .inl (ext fun d => ?_)
    rw [getElem?_put, entry_eq_of_getElem? h]
    split
    · rename_i e
      rw [← e, h]
    · rfl

namespace Meets

theorem mono (h : j.Meets c l j') (hl : l ⊆ l') : j.Meets c l' j' := by
  obtain rfl | ⟨hn, x, hx, rfl⟩ := h
  · exact .inl rfl
  · exact .inr ⟨hn, x, hl hx, rfl⟩

theorem trans (h : j.Meets c l j₁) (h' : j₁.Meets c l' j') : j.Meets c (l ++ l') j' := by
  obtain rfl | ⟨hn, x, hx, rfl⟩ := h
  · exact h'.mono (List.subset_append_right l l')
  · obtain rfl | ⟨hn', -⟩ := h'
    · exact .inr ⟨hn, x, List.mem_append_left l' hx, rfl⟩
    · simp [getElem?_put] at hn'

theorem pending (h : j.Meets c l j') : j'.pending d = j.pending d := by
  obtain rfl | ⟨hn, x, -, rfl⟩ := h
  · rfl
  · have hx : ({ expected := x.store.version c } : Entry β) = j.entry x.store c := by simp [entry, hn]
    rw [hx, pending_put_entry]

end Meets

theorem written_congr (h : ∀ c, j'.pending c = j.pending c) : j'.written s = j.written s := by
  have hread (k : Journal β) (c : CellId) :
      (k.written s)[c]? = (k.pending c).map fun v => ⟨⟨c, s.now, v⟩, ∅⟩ := by
    rw [getElem?_written, pending]
    cases k.entries[c]? <;> rfl
  refine Std.ExtTreeMap.ext_getElem? fun {c} => ?_
  rw [hread, hread, h]

theorem touch_of_not_success {f : Any β → Except Panic (Access β)}
    (h : ∀ v, (j.touch s c f).1 ≠ .success v) : (j.touch s c f).2 = j.put c (j.entry s c) := by
  unfold touch at h ⊢
  cases hf : f (j.entry s c).current with
  | error p => simp only [hf]
  | ok a =>
    cases a with
    | leave o => simp only [hf]
    | write v r =>
      cases hv : (j.entry s c).set v with
      | error d => simp only [hf, hv]
      | ok y =>
        simp only [hf, hv] at h
        exact absurd rfl (h r)

end Journal

namespace Tree

variable {t : Tree β Ω} {c : CellId}

def AllOrNothing (c : CellId) (t : Tree β Ω) : Prop :=
  ∀ ⦃f env j l o j'⦄, t.Evaluates f env j l o j' → (∀ v, o ≠ .success v) → j.Meets c l j'

theorem allOrNothing_touch (g : Any β → Code Ω (Access β)) : (touch c g).AllOrNothing c := by
  intro f env j l o j' he ho
  obtain ⟨x, rfl, e⟩ := evaluates_touch_iff.1 he
  have hx : ∀ v, (j.touch x.store c fun v => g v x.world).1 ≠ .success v := by
    rw [← e]
    exact ho
  have hj : j' = (j.touch x.store c fun v => g v x.world).2 := congrArg Prod.snd e
  rw [hj, Journal.touch_of_not_success hx]
  exact Journal.meets_put_entry x

theorem allOrNothing_done (p : Outcome β) : (done p : Tree β Ω).AllOrNothing c := by
  intro f env j l o j' he _
  obtain ⟨-, -, rfl⟩ := evaluates_done_iff.1 he
  exact .inl rfl

theorem AllOrNothing.andThen {k : Ω → Any β → Tree β Ω}
    (ht : ∀ ⦃f env j l o j'⦄, t.Evaluates f env j l o j' → j.Meets c l j')
    (hk : ∀ ω v, (k ω v).AllOrNothing c) : (t.onSuccess k).AllOrNothing c := by
  intro f env j l o j' he ho
  obtain ⟨h, -⟩ | ⟨l₁, x, l₂, v, j₁, rfl, h, h'⟩ := evaluates_onSuccess_iff.1 he
  · exact ht h
  · exact (ht h).trans ((hk x.world v h' ho).mono (List.subset_cons_self x l₂))

end Tree

namespace Semaphore

variable {R E : Ty β} {s : Semaphore}

theorem meets_available {f : FiberId} {env : Any β} {j j' : Journal β} {l : List (Scene β Ω)}
    {o : Outcome β} (he : (s.available : Tx Ω R E .nat).tree.Evaluates f env j l o j') :
    j.Meets s.cell l j' := by
  obtain ⟨x, rfl, -⟩ := Tree.evaluates_touch_iff.1 he
  by_cases ht : (j.entry x.store s.cell).current.ty = .nat
  · obtain ⟨n, hn⟩ := Any.exists_eq_mk ht
    have hj : j' = j.put s.cell (j.entry x.store s.cell) :=
      congrArg Prod.snd ((Ref.evaluates_access_iff (r := s.permits) hn).1 he)
    rw [hj]
    exact Journal.meets_put_entry x
  · obtain ⟨-, rfl⟩ := (Ref.evaluates_access_mismatch (r := s.permits) ht).1 he
    exact Journal.meets_put_entry x

theorem allOrNothing_bind {k : Nat → Tx Ω R E .unit} (hk : ∀ n, (k n).tree.AllOrNothing s.cell) :
    (s.available.bind fun (n : Nat) => pure (k n) : Tx Ω R E .unit).tree.AllOrNothing s.cell := by
  refine Tree.AllOrNothing.andThen (fun _ _ _ _ _ _ => meets_available) fun ω v => ?_
  unfold Tx.cont
  cases v.as .nat with
  | none => exact Tree.allOrNothing_done _
  | some n => exact hk n

end Semaphore

theorem Tree.Operates.allOrNothing {t : Tree β Ω} {c : CellId} (h : t.Operates c) :
    t.AllOrNothing c := by
  cases h with
  | view h =>
    obtain ⟨g, rfl⟩ := h.eq_touch
    exact allOrNothing_touch g
  | acquire s n =>
    refine Semaphore.allOrNothing_bind fun free => ?_
    split
    · exact allOrNothing_touch _
    · exact allOrNothing_done _
  | release s n =>
    refine Semaphore.allOrNothing_bind fun free => ?_
    split
    · exact allOrNothing_touch _
    · exact allOrNothing_done _
  | _ => exact allOrNothing_touch _

/-- An operation that ends in a failure, a retry or a halt leaves every pending write as it was. What the
journal would have published before it would publish then. There is at most one entry more, for the cell
that was asked for, and nothing is written to it. -/
theorem Tree.Operates.unwritten_unless_success {t : Tree β Ω} {c : CellId} {f : FiberId} {env : Any β}
    {j j' : Journal β} {l : List (Scene β Ω)} {o : Outcome β} (h : t.Operates c)
    (he : t.Evaluates f env j l o j') (ho : ∀ v, o ≠ .success v) :
    (∀ d, j'.pending d = j.pending d) ∧ (∀ s, j'.written s = j.written s) ∧
      (j' = j ∨ j.entries[c]? = none ∧ ∃ x ∈ l, j' = j.put c { expected := x.store.version c }) := by
  have hj : j.Meets c l j' := h.allOrNothing he ho
  exact ⟨fun d => hj.pending, fun s => Journal.written_congr fun d => hj.pending, hj⟩

section

open Scenario (Base)

def hours : View Unit (.nat : Ty Base) .nat .nat .nat .nat where
  ref := ⟨⟨1⟩⟩
  read (s : Nat) := pure s
  writer := .replace fun (a : Nat) => if a < 12 then pure a else throw a

def halfHours : View Unit (.nat : Ty Base) .nat .nat .nat .nat :=
  hours.fold pure pure (fun (n : Nat) => pure (2 * n)) fun (n : Nat) => pure (n / 2)

theorem unwritten_unless_success_halfHours :
    let s : Store Base := ((({} : Store Base).alloc ⟨.nat, (10 : Nat)⟩).2.alloc ⟨.nat, (0 : Nat)⟩).2
    let j : Journal Base := (({} : Journal Base).touch s ⟨2⟩ fun _ => .ok (.write ⟨.nat, (7 : Nat)⟩ .unit)).2
    let t : Tx Unit .unit .nat .nat := halfHours.modify fun (n : Nat) => pure (n, n + 3)
    let j' := j.put ⟨1⟩ { expected := s.version ⟨1⟩ }
    t.tree.Evaluates ⟨1⟩ .unit j [⟨s, ()⟩] (.failure ⟨.nat, (16 : Nat)⟩) j' ∧
      j'.pending ⟨1⟩ = none ∧ j'.pending ⟨2⟩ = some ⟨.nat, (7 : Nat)⟩ := by
  -- The number is read and changed, and only then is it found that it cannot be written. A write to another
  -- cell waits all the time.
  intro s j t j'
  have hs : (j.entry s halfHours.ref.cell).current = ⟨.nat, (10 : Nat)⟩ := by with_unfolding_all rfl
  have he : t.tree.Evaluates ⟨1⟩ .unit j [⟨s, ()⟩] (.failure ⟨.nat, (16 : Nat)⟩) j' := by
    refine (View.evaluates_modify_iff (v := halfHours) hs).2 ?_
    with_unfolding_all rfl
  obtain ⟨hp, -, -⟩ := Tree.Operates.unwritten_unless_success (.view (.modify halfHours _)) he nofun
  rw [hp, hp]
  refine ⟨he, ?_⟩
  with_unfolding_all exact ⟨rfl, rfl⟩

end

end TransactionalMemory
