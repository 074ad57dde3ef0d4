import Mathlib.Order.Defs.PartialOrder
import TransactionalMemory.Proofs.Meaning

namespace TransactionalMemory

variable {β : Type} [Universe β] {Ω : Type}

structure Layout (β : Type) where
  made : CellId → Option (Ty β)

instance : Preorder (Layout β) where
  le Γ Δ := ∀ c t, Γ.made c = some t → Δ.made c = some t
  le_refl _ _ _ h := h
  le_trans _ _ _ h h' c t hc := h' c t (h c t hc)

/-- What a program asks of the values of its own types and of its surroundings, which may hold references like
anything else, and the mismatches that its own halts may report. -/
structure Charter (β : Type) [Universe β] (Ω : Type) where
  base : Layout β → (b : β) → Universe.El b → Prop
  world : Layout β → Ω → Prop
  halts : String → Prop
  base_mono : ∀ {Γ Δ : Layout β}, Γ ≤ Δ → ∀ {b x}, base Γ b x → base Δ b x
  world_mono : ∀ {Γ Δ : Layout β}, Γ ≤ Δ → ∀ {ω}, world Γ ω → world Δ ω

def Charter.Owns (H : Charter β Ω) (d : Defect) : Prop := ∀ n, d = .typeMismatch n → H.halts n

theorem Charter.owns_panic {H : Charter β Ω} (p : Panic) : H.Owns (.ofPanic p) := by
  intro n h
  cases h

@[ext]
structure Typing (H : Charter β Ω) extends Layout β

instance {H : Charter β Ω} : Preorder (Typing H) where
  le Γ Δ := Γ.toLayout ≤ Δ.toLayout
  le_refl Γ := le_refl Γ.toLayout
  le_trans _ _ _ := le_trans (α := Layout β)

namespace Typing

variable {H : Charter β Ω} {Γ Δ : Typing H} {t R E A T : Ty β} {α α' : Type}

/-- The value is what its type says, and so is everything in it. -/
def Holds (Γ : Typing H) : (t : Ty β) → t.El → Prop
  | .base b, x => H.base Γ.toLayout b x
  | .never, _ | .unit, _ | .bool, _ | .nat, _ | .fiber, _ => True
  | .semaphore, x => Γ.made (show Semaphore from x).cell = some .nat
  | .ref t, x => Γ.made (show Ref t from x).cell = some t
  | .list t, x => ∀ a ∈ (show List t.El from x), Γ.Holds t a
  | .option t, x => ∀ a ∈ (show Option t.El from x), Γ.Holds t a
  | .pair s t, x => Γ.Holds s x.1 ∧ Γ.Holds t x.2
  | .either s t, x =>
    match (x : s.El ⊕ t.El) with
    | .inl a => Γ.Holds s a
    | .inr b => Γ.Holds t b
  | .result e a, x =>
    match (x : Except e.El a.El) with
    | .error u => Γ.Holds e u
    | .ok v => Γ.Holds a v
  | .promise e a, x => Γ.made (show Promise e a from x).cell = some (.option (.result e a))

def Has (Γ : Typing H) (t : Ty β) (v : Any β) : Prop := ∃ a, v = ⟨t, a⟩ ∧ Γ.Holds t a

/-- Whatever the code gives, in surroundings as they may be, is as `P` says. It may panic instead. -/
def Yields (Γ : Typing H) (P : α → Prop) (c : Code Ω α) : Prop :=
  ∀ ω, H.world Γ.toLayout ω → ∀ a, c ω = .ok a → P a

def Comes (Γ : Typing H) (E A : Ty β) : Outcome β → Prop
  | .success v => Γ.Has A v
  | .failure v => Γ.Has E v
  | .halt d => H.Owns d
  | .interrupt _ | .retry => True

def Does (Γ : Typing H) (T E A : Ty β) : Access β → Prop
  | .leave o => Γ.Comes E A o
  | .write v answer => Γ.Has T v ∧ Γ.Has A answer

theorem Holds.mono (h : Γ ≤ Δ) {x : t.El} (hx : Γ.Holds t x) : Δ.Holds t x := by
  have hm : ∀ {c t}, Γ.made c = some t → Δ.made c = some t := fun hc => h _ _ hc
  induction t with
  | base b => exact H.base_mono h hx
  | never | unit | bool | nat | fiber => trivial
  | semaphore | ref t | promise e a => exact hm hx
  | list t ih => exact fun a ha => ih (hx a ha)
  | option t ih => exact fun a ha => ih (hx a ha)
  | pair s t ih ih' => exact ⟨ih hx.1, ih' hx.2⟩
  | either s t ih ih' =>
    cases x with
    | inl a => exact ih hx
    | inr b => exact ih' hx
  | result e a ih ih' =>
    cases x with
    | error u => exact ih hx
    | ok v => exact ih' hx

theorem Has.mono (h : Γ ≤ Δ) {v : Any β} (hv : Γ.Has t v) : Δ.Has t v := by
  obtain ⟨a, rfl, ha⟩ := hv
  exact ⟨a, rfl, ha.mono h⟩

theorem Has.ty {v : Any β} (hv : Γ.Has t v) : v.ty = t := by
  obtain ⟨a, rfl, -⟩ := hv
  rfl

theorem Holds.has {a : t.El} (h : Γ.Holds t a) : Γ.Has t ⟨t, a⟩ := ⟨a, rfl, h⟩

theorem has_unit : Γ.Has .unit .unit := ⟨_, rfl, trivial⟩

section

variable {P : α → Prop} {P' : α' → Prop} {c : Code Ω α} {g : α → α'} {k : α → Code Ω α'}

theorem yields_pure {a : α} (h : P a) : Γ.Yields P (pure a : Code Ω α) := by
  intro ω _ b hb
  cases hb
  exact h

theorem yields_true (c : Code Ω α) : Γ.Yields (fun _ => True) c := fun _ _ _ _ => trivial

theorem Yields.bind (h : Γ.Yields P c) (hk : ∀ a, P a → Γ.Yields P' (k a)) : Γ.Yields P' (c >>= k) := by
  intro ω hω b hb
  change (c ω >>= fun a => k a ω) = .ok b at hb
  cases hc : c ω with
  | error p =>
    rw [hc] at hb
    cases hb
  | ok a =>
    rw [hc] at hb
    exact hk a (h ω hω a hc) ω hω b hb

theorem Yields.map (h : Γ.Yields P c) (hg : ∀ a, P a → P' (g a)) : Γ.Yields P' (g <$> c) := by
  rw [← bind_pure_comp]
  exact h.bind fun a ha => yields_pure (hg a ha)

theorem comes_caught {r : Except Panic (Outcome β)} (h : ∀ o, r = .ok o → Γ.Comes E A o) :
    Γ.Comes E A (Machine.caught r) := by
  cases r with
  | error p => exact Charter.owns_panic p
  | ok o => exact h o rfl

end

def declare (Γ : Typing H) (c : CellId) (t : Ty β) : Typing H :=
  ⟨⟨fun d => if d = c then some t else Γ.made d⟩⟩

theorem made_declare {c : CellId} : (Γ.declare c t).made c = some t := if_pos rfl

theorem le_declare {c : CellId} (h : Γ.made c = none) : Γ ≤ Γ.declare c t := by
  intro d u hd
  refine (if_neg ?_).trans hd
  rintro rfl
  cases h.symm.trans hd

end Typing

/-! ### Cells and journals -/

section

variable {H : Charter β Ω} {Γ Δ : Typing H} {T E A : Ty β} {s t : Store β} {c d : CellId} {v : Any β}

namespace Entry

structure Fits (Γ : Typing H) (T : Ty β) (e : Entry β) : Prop where
  expected : Γ.Has T e.expected.value
  pending : ∀ w, e.pending = some w → Γ.Has T w

variable {e : Entry β}

theorem Fits.mono (h : Γ ≤ Δ) (he : e.Fits Γ T) : e.Fits Δ T where
  expected := he.expected.mono h
  pending w hw := (he.pending w hw).mono h

theorem Fits.current (h : e.Fits Γ T) : Γ.Has T e.current := by
  unfold Entry.current
  cases hp : e.pending with
  | none => exact h.expected
  | some w => exact h.pending w hp

theorem Fits.set (h : e.Fits Γ T) (hv : Γ.Has T v) : ∃ e', e.set v = .ok e' ∧ e'.Fits Γ T := by
  unfold Entry.set
  rw [if_pos (h.current.ty.trans hv.ty.symm)]
  split
  · exact ⟨e, rfl, h⟩
  · split
    · exact ⟨_, rfl, h.expected, nofun⟩
    · refine ⟨_, rfl, h.expected, ?_⟩
      intro w hw
      cases hw
      exact hv

end Entry

structure Store.Respects (s : Store β) (Γ : Typing H) : Prop where
  made : ∀ c T, Γ.made c = some T → c.number < s.nextCell.number
  value : ∀ c T, Γ.made c = some T → Γ.Has T (s.value c)

namespace Store.Respects

theorem nextCell (h : s.Respects Γ) : Γ.made s.nextCell = none := by
  cases hc : Γ.made s.nextCell with
  | none => rfl
  | some T => exact absurd (h.made _ T hc) (Nat.lt_irrefl _)

theorem alloc (h : s.Respects Γ) (hv : Γ.Has T v) :
    (s.alloc v).2.Respects (Γ.declare s.nextCell T) := by
  have cases_made {c U} (hc : (Γ.declare s.nextCell T).made c = some U) :
      (c = s.nextCell ∧ U = T) ∨ (c ≠ s.nextCell ∧ Γ.made c = some U) := by
    by_cases e : c = s.nextCell
    · subst e
      exact .inl ⟨rfl, Option.some.inj (hc.symm.trans Typing.made_declare)⟩
    · exact .inr ⟨e, (if_neg e).symm.trans hc⟩
  constructor
  · intro c U hc
    obtain ⟨rfl, -⟩ | ⟨-, hc⟩ := cases_made hc
    · exact Nat.lt_succ_self _
    · exact Nat.lt_succ_of_lt (h.made c U hc)
  · intro c U hc
    rw [Store.value, Store.version_alloc]
    obtain ⟨rfl, rfl⟩ | ⟨e, hc⟩ := cases_made hc
    · rw [if_pos rfl]
      exact hv.mono (Typing.le_declare h.nextCell)
    · rw [if_neg (Ne.symm e)]
      exact (h.value c U hc).mono (Typing.le_declare h.nextCell)

end Store.Respects

def Journal.Respects (j : Journal β) (Γ : Typing H) : Prop :=
  ∀ (c : CellId) (e : Entry β), j.entries[c]? = some e → ∃ T, Γ.made c = some T ∧ e.Fits Γ T

def Checkpoint.Respects (k : Checkpoint β) (Γ : Typing H) : Prop :=
  ∀ (c : CellId) (v : Any β), k[c]? = some (some v) → ∃ T, Γ.made c = some T ∧ Γ.Has T v

structure Scene.Respects (x : Scene β Ω) (Γ : Typing H) : Prop where
  store : x.store.Respects Γ
  world : H.world Γ.toLayout x.world

namespace Journal

variable {j : Journal β} {e : Entry β} {k : Checkpoint β}

theorem respects_empty : ({} : Journal β).Respects Γ := by
  intro c e h
  simp at h

theorem Respects.mono (hle : Γ ≤ Δ) (h : j.Respects Γ) : j.Respects Δ := by
  intro c e he
  obtain ⟨T, hc, hf⟩ := h c e he
  exact ⟨T, hle c T hc, hf.mono hle⟩

theorem Respects.put (h : j.Respects Γ) (hc : Γ.made c = some T) (he : e.Fits Γ T) :
    (j.put c e).Respects Γ := by
  intro d x hx
  rw [getElem?_put] at hx
  split at hx
  · rename_i hd
    subst hd
    cases hx
    exact ⟨T, hc, he⟩
  · exact h d x hx

theorem Respects.insertNew (h : j.Respects Γ) (hc : Γ.made s.nextCell = some T) (hv : Γ.Has T v) :
    (j.insertNew (s.alloc v).2 s.nextCell).Respects Γ := by
  have hnew : ((s.alloc v).2.version s.nextCell).value = v := by rw [Store.version_alloc, if_pos rfl]
  refine h.put hc ⟨?_, nofun⟩
  rw [hnew]
  exact hv

theorem Respects.entry (h : j.Respects Γ) (hs : s.Respects Γ) (hc : Γ.made c = some T) :
    (j.entry s c).Fits Γ T := by
  unfold Journal.entry
  cases he : j.entries[c]? with
  | none => exact ⟨hs.value c T hc, nofun⟩
  | some e =>
    obtain ⟨T', hc', hf⟩ := h c e he
    cases hc.symm.trans hc'
    exact hf

theorem Respects.checkpoint (h : j.Respects Γ) : Checkpoint.Respects j.checkpoint Γ := by
  intro c v hv
  rw [getElem?_checkpoint, Option.map_eq_some_iff] at hv
  obtain ⟨e, he, hp⟩ := hv
  obtain ⟨T, hc, hf⟩ := h c e he
  exact ⟨T, hc, hf.pending v hp⟩

theorem Respects.rollback (h : j.Respects Γ) (hk : Checkpoint.Respects k Γ) : (j.rollback k).Respects Γ := by
  intro c x hx
  rw [getElem?_rollback, Option.map_eq_some_iff] at hx
  obtain ⟨e, he, rfl⟩ := hx
  obtain ⟨T, hc, hf⟩ := h c e he
  refine ⟨T, hc, hf.expected, ?_⟩
  intro v hv
  obtain ⟨T', hc', hv'⟩ := hk c v (Option.join_eq_some_iff.1 hv)
  cases hc.symm.trans hc'
  exact hv'

theorem Respects.touch (h : j.Respects Γ) (hc : Γ.made c = some T) (he : (j.entry s c).Fits Γ T)
    {g : Any β → Except Panic (Access β)}
    (hg : ∀ a, g (j.entry s c).current = .ok a → Γ.Does T E A a) :
    Γ.Comes E A (j.touch s c g).1 ∧ (j.touch s c g).2.Respects Γ := by
  -- Code that is in order with what it finds leaves the journal in order, and its outcome is of its types:
  -- what it writes never meets a value of another type.
  simp only [Journal.touch]
  cases hr : g (j.entry s c).current with
  | error p => exact ⟨Charter.owns_panic p, h.put hc he⟩
  | ok a =>
    cases a with
    | leave o => exact ⟨hg _ hr, h.put hc he⟩
    | write v answer =>
      obtain ⟨hv, ha⟩ := hg _ hr
      obtain ⟨e', hset, he'⟩ := he.set hv
      simp only [hset]
      exact ⟨ha, h.put hc he'⟩

theorem Respects.publish (h : j.Respects Γ) (hs : s.Respects Γ) {w : Waiting} {k : Journal β}
    (hp : j.publish s = .ok (w, t, k)) : t.Respects Γ where
  made c T hc := by
    obtain ⟨-, -, rfl⟩ := publish_eq_ok hp
    exact hs.made c T hc
  value c T hc := by
    rw [Store.value, Store.version]
    obtain ⟨e, v, he, hv, ht⟩ | ⟨-, ht⟩ := cell_publish hp c
    · obtain ⟨T', hc', hf⟩ := h c e he
      cases hc.symm.trans hc'
      rw [ht]
      exact hf.pending v hv
    · rw [ht]
      exact hs.value c T hc

end Journal

end

end TransactionalMemory
