import TransactionalMemory.Proofs.Layers
import TransactionalMemory.Proofs.Meaning

namespace TransactionalMemory

variable {β : Type} [Universe β] {Ω : Type}

namespace Journal

def pending (j : Journal β) (c : CellId) : Option (Any β) := (j.entries[c]?).bind Entry.pending

variable {j : Journal β} {s s' : Store β} {c d : CellId} {x y : Entry β}
  {f : Any β → Except Panic (Access β)}

theorem ext {k : Journal β} (h : ∀ c : CellId, j.entries[c]? = k.entries[c]?) : j = k :=
  congrArg Journal.mk (Std.ExtTreeMap.ext_getElem? fun {c} => h c)

theorem put_put : (j.put c x).put c y = j.put c y := by
  apply ext
  intro d
  simp only [getElem?_put]
  split <;> rfl

theorem entry_put_self : (j.put c x).entry s c = x := by
  rw [entry_put, if_pos rfl]

theorem pending_entry : (j.entry s c).pending = j.pending c := by
  cases h : j.entries[c]? <;> simp [entry, pending, h]

theorem pending_put : (j.put c x).pending d = if c = d then x.pending else j.pending d := by
  unfold pending
  rw [getElem?_put]
  split <;> rfl

theorem pending_put_entry : (j.put c (j.entry s c)).pending d = j.pending d := by
  rw [pending_put]
  split
  · rename_i e
    rw [pending_entry, e]
  · rfl

theorem touch_of_current {q : Except Panic (Access β)} (h : f (j.entry s c).current = q) :
    j.touch s c f = j.touch s c fun _ => q := by
  unfold touch
  simp only [h]

theorem touch_leave {o : Outcome β} :
    (j.touch s c fun _ => .ok (.leave o)) = (o, j.put c (j.entry s c)) := rfl

theorem touch_write {v r : Any β} : (j.touch s c fun _ => .ok (.write v r)) =
    match (j.entry s c).set v with
    | .error d => (.halt d, j.put c (j.entry s c))
    | .ok x => (.success r, j.put c x) := rfl

theorem touch_put_entry : (j.put c (j.entry s c)).touch s' c f = j.touch s c f := by
  unfold touch
  simp only [entry_put_self, put_put]

theorem getElem?_touch_of_ne (h : c ≠ d) : (j.touch s c f).2.entries[d]? = j.entries[d]? := by
  obtain ⟨p, e⟩ := touch_eq_put (j := j) (s := s) (c := c) f
  rw [e, getElem?_put, if_neg h]

end Journal

/-- What can be done through a view. -/
inductive View.Performs {S : Ty β} (R : Ty β) :
    {E F A B : Ty β} → View Ω S E F A B → Tree β Ω → Prop
  | get (v : View Ω S E F A B) : Performs R v (v.get : Tx Ω R F B).tree
  | set (v : View Ω S E F A B) (a : A.El) : Performs R v (v.set a : Tx Ω R E .unit).tree
  | modify (v : View Ω S E E A A) (g : A.El → Code Ω (B.El × A.El)) :
    Performs R v (v.modify g : Tx Ω R E B).tree
  | update (v : View Ω S E E A A) (g : A.El → Code Ω A.El) :
    Performs R v (v.update g : Tx Ω R E .unit).tree

section

variable {f : FiberId} {env : Any β} {j j' : Journal β} {l : List (Scene β Ω)} {x : Scene β Ω}
  {o : Outcome β} {R S E F A B : Ty β} {s : S.El}

theorem Tree.evaluates_touch_iff {c : CellId} {g : Any β → Code Ω (Access β)} :
    (Tree.touch c g).Evaluates f env j l o j' ↔
      ∃ x : Scene β Ω, l = [x] ∧ (o, j') = j.touch x.store c fun v => g v x.world := by
  constructor
  · intro h
    cases h with
    | touch x => exact ⟨x, rfl, rfl⟩
  · rintro ⟨x, rfl, h⟩
    obtain ⟨rfl, rfl⟩ := Prod.mk.inj h
    exact .touch x

theorem Tree.evaluates_touch_one {c : CellId} {g : Any β → Code Ω (Access β)} :
    (touch c g).Evaluates f env j [x] o j' ↔ (o, j') = j.touch x.store c fun v => g v x.world := by
  rw [evaluates_touch_iff]
  simp only [List.cons.injEq, and_true, exists_eq_left']

theorem Ref.evaluates_access_iff {r : Ref S} {g : S.El → Code Ω (Access β)}
    (h : (j.entry x.store r.cell).current = ⟨S, s⟩) : (r.access g).Evaluates f env j [x] o j' ↔
      (o, j') = j.touch x.store r.cell fun _ => g s x.world := by
  unfold access
  rw [Tree.evaluates_touch_one, Journal.touch_of_current (q := g s x.world)]
  rw [h, Any.as_self]

theorem Ref.evaluates_access_mismatch {r : Ref S} {g : S.El → Code Ω (Access β)}
    (h : (j.entry x.store r.cell).current.ty ≠ S) : (r.access g).Evaluates f env j [x] o j' ↔
      o = mismatch S ∧ j' = j.put r.cell (j.entry x.store r.cell) := by
  have hn : (j.entry x.store r.cell).current.as S = none := by
    rw [← Option.not_isSome_iff_eq_none, Any.as_isSome]
    exact h
  unfold access
  rw [Tree.evaluates_touch_one, Journal.touch_of_current (q := .ok (.leave (mismatch S)))]
  · rw [Journal.touch_leave, Prod.mk.injEq]
  · rw [hn]
    rfl

namespace View

def answer : Except Panic (Except F.El B.El) → Outcome β
  | .ok (.ok b) => .success ⟨B, b⟩
  | .ok (.error e) => .failure ⟨F, e⟩
  | .error p => .halt (.ofPanic p)

section

variable {answer : Any β}

theorem store_value {s : S.El} :
    store answer <$> (.ok (.ok s) : Except Panic (Except E.El S.El)) = .ok (.write ⟨S, s⟩ answer) := rfl

theorem store_stop (q : Except Panic E.El) : store answer <$> (q.map .error : Except Panic (Except E.El S.El)) =
    q.map fun e => .leave (.failure ⟨E, e⟩) := by
  cases q <;> rfl

end

variable {v : View Ω S E F A B}

theorem evaluates_get_iff (h : (j.entry x.store v.ref.cell).current = ⟨S, s⟩) :
    (v.get : Tx Ω R F B).tree.Evaluates f env j [x] o j' ↔
      o = answer ((v.read s).result x.world) ∧
        j' = j.put v.ref.cell (j.entry x.store v.ref.cell) := by
  refine (Ref.evaluates_access_iff h).trans ?_
  rw [← Prod.mk.injEq]
  change (o, j') = (j.touch x.store v.ref.cell fun _ => _ <$> (v.read s).result x.world) ↔ _
  cases (v.read s).result x.world with
  | error p => rfl
  | ok q => cases q <;> rfl

theorem evaluates_set_iff {a : A.El} (h : (j.entry x.store v.ref.cell).current = ⟨S, s⟩) :
    (v.set a : Tx Ω R E (.unit : Ty β)).tree.Evaluates f env j [x] o j' ↔
      (o, j') = j.touch x.store v.ref.cell fun _ =>
        store .unit <$> (v.writer.write a s).result x.world := by
  obtain ⟨r, read, writer⟩ := v
  cases writer with
  | replace set => exact Tree.evaluates_touch_one
  | amend set => exact Ref.evaluates_access_iff h

theorem evaluates_modify_iff {v : View Ω S E E A A} {g : A.El → Code Ω (B.El × A.El)}
    (h : (j.entry x.store v.ref.cell).current = ⟨S, s⟩) :
    (v.modify g : Tx Ω R E B).tree.Evaluates f env j [x] o j' ↔
      (o, j') = j.touch x.store v.ref.cell fun _ =>
        match (v.read s).result x.world with
        | .ok (.ok a) => (g a x.world).bind fun p => store ⟨B, p.1⟩ <$> (v.writer.write p.2 s).result x.world
        | .ok (.error e) => .ok (.leave (.failure ⟨E, e⟩))
        | .error p => .error p := by
  refine (Ref.evaluates_access_iff h).trans ?_
  rw [iff_iff_eq]
  congr 2
  funext _
  change ((v.read s).result x.world).bind _ = _
  cases (v.read s).result x.world with
  | error p => rfl
  | ok q => cases q <;> rfl

theorem Performs.eq_touch {t : Tree β Ω} (h : v.Performs R t) : ∃ g, t = .touch v.ref.cell g := by
  cases h with
  | get | modify | update => exact ⟨_, rfl⟩
  | set a =>
    obtain ⟨r, read, writer⟩ := v
    cases writer <;> exact ⟨_, rfl⟩

theorem Performs.exists_scene {t : Tree β Ω} (h : v.Performs R t) (he : t.Evaluates f env j l o j') :
    ∃ x, l = [x] := by
  obtain ⟨g, rfl⟩ := h.eq_touch
  obtain ⟨x, hx, -⟩ := Tree.evaluates_touch_iff.1 he
  exact ⟨x, hx⟩

theorem Performs.getElem?_entries {t : Tree β Ω} (h : v.Performs R t)
    (he : t.Evaluates f env j l o j') {c : CellId} (hc : c ≠ v.ref.cell) :
    j'.entries[c]? = j.entries[c]? := by
  obtain ⟨g, rfl⟩ := h.eq_touch
  obtain ⟨x, -, e⟩ := Tree.evaluates_touch_iff.1 he
  have hj : j' = (j.touch x.store v.ref.cell fun a => g a x.world).2 := congrArg Prod.snd e
  rw [hj]
  exact Journal.getElem?_touch_of_ne hc.symm

end View

end

end TransactionalMemory
