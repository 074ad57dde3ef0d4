import TransactionalMemory.Proofs.Equality
import TransactionalMemory.Proofs.Operations
import TransactionalMemory.Proofs.Snapshot
import TransactionalMemory.Scenario.Val

namespace TransactionalMemory

variable {β : Type} [Universe β] {Ω : Type}

/-- Cells of the type take two values for the same only if they are. -/
def Ty.Structural (t : Ty β) : Prop := ∀ u v : t.El, t.same u v = true ↔ u = v

/-- What has been written is read back, and what has been read is written back where it can be. What is
read depends on nothing besides. -/
structure RoundTrips {ε ε' α γ : Type} (get : α → Conv Ω ε γ) (set : γ → α → Conv Ω ε' α) : Prop where
  steady : ∀ b c ω ω', (get b).result ω = .ok (.ok c) → (get b).result ω' = .ok (.ok c)
  put_get : ∀ a b c ω, (set c b).result ω = .ok (.ok a) → (get a).result ω = .ok (.ok c)
  get_put : ∀ a b c ω, (get b).result ω = .ok (.ok c) → (set c b).result ω = .ok (.ok a) → a = b

variable {S : Ty β} {r : Ref S}

inductive Stack.Lawful : {E F A : Ty β} → Stack Ω r ⟨E, F, A, A⟩ → Prop
  | base {writer : Writer Ω S E A} {get : S.El → Conv Ω F.El A.El} :
    RoundTrips get writer.write → Lawful (.base (k := ⟨E, F, A, A⟩) writer get)
  | snoc {t : Stack Ω r ⟨E, F, A, A⟩} {l : Layer Ω ⟨E, F, A, A⟩ ⟨E', F', C, C⟩} :
    t.Lawful → RoundTrips l.get l.setter.write → Lawful (t.snoc l)

section

variable {E F A : Ty β} {k k' : Face β} {ω : Ω}

theorem Setter.write_of_convert {w : Setter Ω k k'} {m : Conv Ω k.F.El k.B.El} {a : k.A.El} {b : k.B.El}
    {c : k'.A.El} (h : (w.convert m c).result ω = .ok (.ok a)) (hm : m.result ω = .ok (.ok b)) :
    (w.write c b).result ω = .ok (.ok a) := by
  cases w with
  | blind set => exact h
  | seeing crossError set =>
    rwa [convert, Conv.result_bind, Conv.result_mapError_eq_ok.2 hm] at h

theorem Setter.exists_write_of_convert {w : Setter Ω ⟨E, F, A, A⟩ k'} {m : Conv Ω F.El A.El} {a : A.El}
    {c : k'.A.El} (h : (w.convert m c).result ω = .ok (.ok a)) :
    ∃ b, (w.write c b).result ω = .ok (.ok a) := by
  cases w with
  | blind set => exact ⟨a, h⟩
  | seeing crossError set =>
    obtain ⟨b, -, h⟩ := Conv.result_bind_eq_ok.1 h
    exact ⟨b, h⟩

namespace Stack

variable {t : Stack Ω r k} {l : Layer Ω k k'} {s s' : S.El}

theorem read_snoc_eq_ok {c : k'.B.El} : ((t.snoc l).read s).result ω = .ok (.ok c) ↔
    ∃ b, (t.read s).result ω = .ok (.ok b) ∧ (l.get b).result ω = .ok (.ok c) := by
  simp only [read_snoc, Conv.result_bind_eq_ok, Conv.result_mapError_eq_ok]

theorem write_snoc_eq_ok {c : k'.A.El} : ((t.snoc l).write c s).result ω = .ok (.ok s') ↔
    ∃ a, (l.setter.convert (t.read s) c).result ω = .ok (.ok a) ∧
      (t.write a s).result ω = .ok (.ok s') := by
  simp only [write_snoc, Conv.result_bind_eq_ok, Conv.result_mapError_eq_ok]

theorem Lawful.roundTrips {t : Stack Ω r ⟨E, F, A, A⟩} (h : t.Lawful) : RoundTrips t.read t.write := by
  induction h with
  | @base _ _ _ writer get h => cases writer <;> exact h
  | snoc _ hl ih =>
    constructor
    case steady =>
      intro s c ω ω' h
      obtain ⟨b, hb, hc⟩ := read_snoc_eq_ok.1 h
      exact read_snoc_eq_ok.2 ⟨b, ih.steady s b ω ω' hb, hl.steady b c ω ω' hc⟩
    case put_get =>
      intro s' s c ω h
      obtain ⟨a, ha, hs⟩ := write_snoc_eq_ok.1 h
      obtain ⟨b, hb⟩ := Setter.exists_write_of_convert ha
      exact read_snoc_eq_ok.2 ⟨a, ih.put_get s' s a ω hs, hl.put_get a b c ω hb⟩
    case get_put =>
      intro s' s c ω hr hw
      obtain ⟨b, hb, hc⟩ := read_snoc_eq_ok.1 hr
      obtain ⟨a, ha, hs⟩ := write_snoc_eq_ok.1 hw
      obtain rfl := hl.get_put a b c ω hc (Setter.write_of_convert ha hb)
      exact ih.get_put s' s a ω hb hs

end Stack

end

namespace Entry

variable {x y : Entry β} {s : S.El}

theorem ty_of_set {a : Any β} (h : x.set a = .ok y) : x.current.ty = a.ty := by
  by_contra hn
  rw [set_of_ne hn] at h
  cases h

theorem current_of_set_structural (hS : S.Structural) (h : x.set ⟨S, s⟩ = .ok y) :
    y.current = ⟨S, s⟩ := by
  obtain e | hs := current_of_set h
  · exact e
  · generalize y.current = a at hs
    obtain ⟨t, u⟩ := a
    obtain rfl : S = t := Any.ty_of_same hs
    rw [Any.same_mk] at hs
    rw [(hS u s).1 hs]

theorem set_current_structural (hS : S.Structural) (h : x.current = ⟨S, s⟩) : x.set ⟨S, s⟩ = .ok x := by
  refine set_of_same ?_
  rw [h, Any.same_mk]
  exact (hS s s).2 rfl

end Entry

section

variable {f : FiberId} {env : Any β} {j j' : Journal β} {l : List (Scene β Ω)} {x : Scene β Ω}
  {R E F A B : Ty β} {b : Any β}

namespace View

variable {v : View Ω S E F A B}

theorem exists_of_store {c : CellId} {s : Store β} {q : Except Panic (Except E.El S.El)}
    {answer : Any β} (h : (.success b, j') = j.touch s c fun _ => store answer <$> q) :
    ∃ s' y, q = .ok (.ok s') ∧ (j.entry s c).set ⟨S, s'⟩ = .ok y ∧ j' = j.put c y := by
  obtain ⟨s', rfl⟩ | ⟨q, rfl⟩ := Conv.value_or_stop q
  · cases hy : (j.entry s c).set ⟨S, s'⟩ with
    | error d => simp [Journal.touch, store, hy] at h
    | ok y =>
      refine ⟨s', y, rfl, hy, ?_⟩
      simp only [Journal.touch, store, Functor.map, Except.map, hy, Prod.mk.injEq] at h
      exact h.2
  · cases q <;> cases h

theorem exists_of_get (h : (v.get : Tx Ω R F B).tree.Evaluates f env j l (.success b) j') :
    ∃ x s a, l = [x] ∧ (j.entry x.store v.ref.cell).current = ⟨S, s⟩ ∧
      (v.read s).result x.world = .ok (.ok a) ∧ b = ⟨B, a⟩ ∧
      j' = j.put v.ref.cell (j.entry x.store v.ref.cell) := by
  obtain ⟨x, rfl⟩ := (Performs.get (R := R) v).exists_scene h
  by_cases ht : (j.entry x.store v.ref.cell).current.ty = S
  · obtain ⟨s, hs⟩ := Any.exists_eq_mk ht
    obtain ⟨ho, hj⟩ := (evaluates_get_iff hs).1 h
    obtain ⟨a, ha⟩ | ⟨q, hq⟩ := Conv.value_or_stop ((v.read s).result x.world)
    · rw [ha] at ho
      cases ho
      exact ⟨x, s, a, rfl, hs, ha, rfl, hj⟩
    · rw [hq] at ho
      cases q <;> cases ho
  · cases ((Ref.evaluates_access_mismatch ht).1 h).1

theorem exists_of_set {a : A.El}
    (h : (v.set a : Tx Ω R E .unit).tree.Evaluates f env j l (.success b) j') :
    ∃ x s s' y, l = [x] ∧ (j.entry x.store v.ref.cell).current = ⟨S, s⟩ ∧
      (v.writer.write a s).result x.world = .ok (.ok s') ∧
      (j.entry x.store v.ref.cell).set ⟨S, s'⟩ = .ok y ∧ j' = j.put v.ref.cell y := by
  obtain ⟨x, rfl⟩ := (Performs.set (R := R) v a).exists_scene h
  by_cases ht : (j.entry x.store v.ref.cell).current.ty = S
  · obtain ⟨s, hs⟩ := Any.exists_eq_mk ht
    obtain ⟨s', y, hq, hy, hj⟩ := exists_of_store ((evaluates_set_iff hs).1 h)
    exact ⟨x, s, s', y, rfl, hs, hq, hy, hj⟩
  · obtain ⟨r, read, writer⟩ := v
    cases writer with
    | amend set => cases ((Ref.evaluates_access_mismatch ht).1 h).1
    | replace set =>
      obtain ⟨x', hx, he⟩ := Tree.evaluates_touch_iff.1 h
      cases hx
      obtain ⟨s', y, -, hy, -⟩ := exists_of_store he
      exact absurd (Entry.ty_of_set hy) ht

theorem store_unchanged (hS : S.Structural) {c : CellId} {s : Store β} {u : S.El}
    (hu : (j.entry s c).current = ⟨S, u⟩) {q : Except Panic (Except E.El S.El)}
    (hq : ∀ u', q = .ok (.ok u') → u' = u) (answer : Any β) :
    (j.touch s c fun _ => store answer <$> q).2 = j.put c (j.entry s c) := by
  obtain ⟨u', rfl⟩ | ⟨q, rfl⟩ := Conv.value_or_stop q
  · rw [hq u' rfl]
    simp only [Journal.touch, store, Functor.map, Except.map, Entry.set_current_structural hS hu]
  · cases q <;> rfl

end View

/-- What has been written through a lawful stack is read back by whoever reads next, whatever others do in
between. To write what has just been read, where that can be written, leaves nothing behind. -/
theorem Stack.Lawful.round_trips {t : Stack Ω r ⟨E, F, A, A⟩} (h : t.Lawful) (hS : S.Structural)
    (f : FiberId) (env : Any β) :
    (∀ (j j₁ : Journal β) l a b,
      (t.view.set a : Tx Ω R E .unit).tree.Evaluates f env j l (.success b) j₁ →
      ∀ l' o j₂, (t.view.get : Tx Ω R F A).tree.Evaluates f env j₁ l' o j₂ ↔
        (∃ x, l' = [x]) ∧ o = .success ⟨A, a⟩ ∧ j₂ = j₁) ∧
    ∀ (j j₁ : Journal β) l a,
      (t.view.get : Tx Ω R F A).tree.Evaluates f env j l (.success ⟨A, a⟩) j₁ →
      ∀ l' o j₂, (t.view.set a : Tx Ω R E .unit).tree.Evaluates f env j₁ l' o j₂ →
        j₂ = j₁ ∧ ∀ c, j₂.pending c = j.pending c := by
  have ht := h.roundTrips
  constructor
  · intro j j₁ l a b hset l' o j₂
    obtain ⟨x, s, s', y, rfl, -, hw, hy, rfl⟩ := View.exists_of_set hset
    have hread (ω : Ω) : (t.view.read s').result ω = .ok (.ok a) :=
      ht.steady s' a x.world ω (ht.put_get s' s a x.world hw)
    have hget (x' : Scene β Ω) :
        (t.view.get : Tx Ω R F A).tree.Evaluates f env (j.put t.view.ref.cell y) [x'] o j₂ ↔
          o = .success ⟨A, a⟩ ∧ j₂ = j.put t.view.ref.cell y := by
      have hcur : ((j.put t.view.ref.cell y).entry x'.store t.view.ref.cell).current = ⟨S, s'⟩ := by
        rw [Journal.entry_put_self]
        exact Entry.current_of_set_structural hS hy
      rw [View.evaluates_get_iff hcur, Journal.entry_put_self, Journal.put_put, hread]
      rfl
    constructor
    · intro h
      obtain ⟨x', rfl⟩ := (View.Performs.get (R := R) t.view).exists_scene h
      exact ⟨⟨x', rfl⟩, (hget x').1 h⟩
    · rintro ⟨⟨x', rfl⟩, h⟩
      exact (hget x').2 h
  · intro j j₁ l a hget l' o j₂ hset
    obtain ⟨x, s, _, rfl, hs, hread, ⟨⟩, rfl⟩ := View.exists_of_get hget
    obtain ⟨x', rfl⟩ := (View.Performs.set (R := R) t.view a).exists_scene hset
    have hs' : ((j.put t.view.ref.cell (j.entry x.store t.view.ref.cell)).entry x'.store
        t.view.ref.cell).current = ⟨S, s⟩ := by
      rw [Journal.entry_put_self, hs]
    have hw (s' : S.El) (h : (t.view.writer.write a s).result x'.world = .ok (.ok s')) : s' = s :=
      ht.get_put s' s a x'.world (ht.steady s a x.world x'.world hread) h
    have e := (View.evaluates_set_iff hs').1 hset
    rw [Journal.touch_put_entry] at e
    obtain rfl : j₂ = j.put t.view.ref.cell (j.entry x.store t.view.ref.cell) :=
      (congrArg Prod.snd e).trans (View.store_unchanged hS hs hw .unit)
    exact ⟨rfl, fun c => Journal.pending_put_entry⟩

end

section

open Scenario (Base)

theorem Ty.structural_natPair : (Ty.pair .nat .nat : Ty Base).Structural := by
  intro (u : Nat × Nat) (v : Nat × Nat)
  show ((u.1 == v.1) && (u.2 == v.2)) = true ↔ u = v
  simp [Prod.ext_iff]

def Face.plain : Face Base := ⟨.nat, .nat, .nat, .nat⟩

def Stack.first : Stack Unit (⟨⟨1⟩⟩ : Ref (.pair .nat .nat : Ty Base)) .plain :=
  .base (k := .plain) (.amend fun (a : Nat) (s : Nat × Nat) => pure (a, s.2)) fun (s : Nat × Nat) => pure s.1

def Layer.half : Layer Unit .plain .plain where
  writeError := pure
  readError := pure
  setter := .seeing pure fun (c b : Nat) => pure (2 * c + b % 2)
  get := fun (b : Nat) => pure (b / 2)

def Layer.tenMore : Layer Unit .plain .plain where
  writeError := pure
  readError := pure
  setter := .blind fun (c : Nat) => if 10 ≤ c then pure (c - 10) else throw c
  get := fun (b : Nat) => pure (b + 10)

theorem Stack.lawful_first : Stack.first.Lawful := by
  refine .base ⟨fun _ _ _ _ h => h, ?_, ?_⟩
  · rintro a b c ω ⟨⟩
    rfl
  · rintro a b c ω ⟨⟩ ⟨⟩
    rfl

theorem Layer.half_roundTrips : RoundTrips Layer.half.get Layer.half.setter.write := by
  refine ⟨fun _ _ _ _ h => h, ?_, ?_⟩
  · rintro a (b : Nat) (c : Nat) ω ⟨⟩
    have e : (2 * c + b % 2) / 2 = c := by omega
    exact congrArg (fun n : Nat => Except.ok (Except.ok n)) e
  · rintro a (b : Nat) (c : Nat) ω ⟨⟩ ⟨⟩
    have e : 2 * (b / 2) + b % 2 = b := by omega
    exact e

theorem Layer.tenMore_roundTrips : RoundTrips Layer.tenMore.get Layer.tenMore.setter.write := by
  have hset {a b c : Nat} {ω : Unit}
      (h : (Layer.tenMore.setter.write c b).result ω = .ok (.ok (a : Nat))) : a + 10 = c := by
    change Conv.result (if 10 ≤ c then pure (c - 10) else throw c) ω = _ at h
    split at h <;> cases h
    omega
  refine ⟨fun _ _ _ _ h => h, fun a b c ω h => ?_, ?_⟩
  · exact congrArg (fun n : Nat => Except.ok (Except.ok n)) (hset h)
  · rintro a (b : Nat) c ω ⟨⟩ h
    exact Nat.add_right_cancel (hset h)

def Stack.remote : Stack Unit (⟨⟨1⟩⟩ : Ref (.pair .nat .nat : Ty Base)) .plain :=
  (Stack.first.snoc .half).snoc .tenMore

theorem round_trips_remote :
    let x : Scene Base Unit := ⟨{}, ()⟩
    let y : Entry Base := { expected := ⟨⟨1⟩, 0, ⟨.pair .nat .nat, ((7, 4) : Nat × Nat)⟩⟩ }
    let z : Entry Base := { y with pending := some ⟨.pair .nat .nat, ((11, 4) : Nat × Nat)⟩ }
    let j : Journal Base := ({} : Journal Base).put ⟨1⟩ y
    let get : Tx Unit .unit .nat .nat := Stack.remote.view.get
    let set (a : Nat) : Tx Unit .unit .nat .unit := Stack.remote.view.set a
    ((set 15).tree.Evaluates ⟨1⟩ .unit j [x] (.success .unit) (j.put ⟨1⟩ z) ∧
      get.tree.Evaluates ⟨1⟩ .unit (j.put ⟨1⟩ z) [x] (.success ⟨.nat, (15 : Nat)⟩) (j.put ⟨1⟩ z)) ∧
    get.tree.Evaluates ⟨1⟩ .unit j [x] (.success ⟨.nat, (13 : Nat)⟩) j ∧
      ∀ l o j', (set 13).tree.Evaluates ⟨1⟩ .unit j l o j' → j' = j := by
  intro x y z j get set
  have hy : j.entry x.store ⟨1⟩ = y := Journal.entry_put_self
  have hcur : (j.entry x.store Stack.remote.view.ref.cell).current =
      ⟨.pair .nat .nat, ((7, 4) : Nat × Nat)⟩ := congrArg Entry.current hy
  have hset : (set 15).tree.Evaluates ⟨1⟩ .unit j [x] (.success .unit) (j.put ⟨1⟩ z) := by
    refine (View.evaluates_set_iff hcur).2 ?_
    change _ = j.touch x.store ⟨1⟩ _
    rw [Journal.touch, hy]
    rfl
  have hget : get.tree.Evaluates ⟨1⟩ .unit j [x] (.success ⟨.nat, (13 : Nat)⟩) j := by
    refine (View.evaluates_get_iff hcur).2 ⟨rfl, ?_⟩
    change j = j.put ⟨1⟩ (j.entry x.store ⟨1⟩)
    rw [hy]
    exact Journal.put_put.symm
  have h : Stack.remote.Lawful :=
    .snoc (.snoc Stack.lawful_first Layer.half_roundTrips) Layer.tenMore_roundTrips
  obtain ⟨hput, hback⟩ := h.round_trips Ty.structural_natPair ⟨1⟩ .unit (R := .unit)
  exact ⟨⟨hset, (hput _ _ _ _ _ hset _ _ _).2 ⟨⟨x, rfl⟩, rfl, rfl⟩⟩, hget,
    fun l o j' h => (hback _ _ _ _ hget l o j' h).1⟩

end

end TransactionalMemory
