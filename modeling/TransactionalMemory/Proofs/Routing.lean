import TransactionalMemory.Proofs.Operations
import TransactionalMemory.Scenario.Val

namespace TransactionalMemory

variable {β : Type} [Universe β] {Ω : Type} {S : Ty β} {r : Ref S}

inductive Layers (Ω : Type) : Face β → Face β → Type
  | nil : Layers Ω k k
  | snoc (p : Layers Ω k k') (l : Layer Ω k' k'') : Layers Ω k k''

namespace Layers

def onto {k : Face β} : {k' : Face β} → Layers Ω k k' → Stack Ω r k → Stack Ω r k'
  | _, nil, t => t
  | _, snoc p l, t => (p.onto t).snoc l

def readErrors {k : Face β} (ω : Ω) :
    {k' : Face β} → Layers Ω k k' → Except Panic k.F.El → Except Panic k'.F.El
  | _, nil, q => q
  | _, snoc p l, q => do l.readError (← p.readErrors ω q) ω

def writeErrors {k : Face β} (ω : Ω) :
    {k' : Face β} → Layers Ω k k' → Except Panic k.E.El → Except Panic k'.E.El
  | _, nil, q => q
  | _, snoc p l, q => do l.writeError (← p.writeErrors ω q) ω

end Layers

/-- All read conversions below the outermost one have come to values, one after the other, and given
the last of them the outermost one comes to `q`. -/
inductive Stack.Reaches (s : S.El) (ω : Ω) :
    {k : Face β} → Stack Ω r k → Except Panic (Except k.F.El k.B.El) → Prop
  | base {k : Face β} {writer : Writer Ω S k.E k.A} {get : S.El → Conv Ω k.F.El k.B.El}
    {q : Except Panic (Except k.F.El k.B.El)} :
    (get s).result ω = q → Reaches s ω (.base writer get) q
  | snoc {l : Layer Ω k k'} :
    Reaches s ω t (.ok (.ok b)) → (l.get b).result ω = q → Reaches s ω (t.snoc l) q

/-- What a read comes to. Where a conversion fails, the layers outside it map the error. -/
inductive Stack.Reads (s : S.El) (ω : Ω) :
    {k : Face β} → Stack Ω r k → Except Panic (Except k.F.El k.B.El) → Prop
  | through {t : Stack Ω r k} : t.Reaches s ω (.ok (.ok b)) → Reads s ω t (.ok (.ok b))
  | stopped {u : Stack Ω r k} {p : Layers Ω k k'} : u.Reaches s ω (q.map .error) →
    Reads s ω (p.onto u) ((p.readErrors ω q).map .error)

inductive Setter.Makes {k k' : Face β} (s : S.El) (ω : Ω) (t : Stack Ω r k) :
    Setter Ω k k' → k'.A.El → Except Panic (Except k'.E.El k.A.El) → Prop
  | blind {set : k'.A.El → Conv Ω k'.E.El k.A.El} :
    (set c).result ω = q → Makes s ω t (.blind set) c q
  | seeing {set : k'.A.El → k.B.El → Conv Ω k'.E.El k.A.El} {crossError : k.F.El → Code Ω k'.E.El} :
    t.Reads s ω (.ok (.ok b)) → (set c b).result ω = q → Makes s ω t (.seeing crossError set) c q
  | unseen {set : k'.A.El → k.B.El → Conv Ω k'.E.El k.A.El} {crossError : k.F.El → Code Ω k'.E.El} :
    t.Reads s ω (q.map .error) →
    Makes s ω t (.seeing crossError set) c ((q >>= fun e => crossError e ω).map .error)

inductive Layers.Descends {k : Face β} (s : S.El) (ω : Ω) (t : Stack Ω r k) :
    {k' : Face β} → Layers Ω k k' → k'.A.El → k.A.El → Prop
  | nil : Descends s ω t .nil a a
  | snoc {p : Layers Ω k k'} {l : Layer Ω k' k''} :
    l.setter.Makes s ω (p.onto t) c (.ok (.ok a)) → Descends s ω t p a a' →
    Descends s ω t (p.snoc l) c a'

inductive Stack.Balks (s : S.El) (ω : Ω) :
    {k : Face β} → Stack Ω r k → k.A.El → Except Panic k.E.El → Prop
  | base {k : Face β} {writer : Writer Ω S k.E k.A} {get : S.El → Conv Ω k.F.El k.B.El} {a : k.A.El}
    {q : Except Panic k.E.El} :
    (writer.write a s).result ω = q.map .error → Balks s ω (.base writer get) a q
  | snoc {l : Layer Ω k k'} : l.setter.Makes s ω t c (q.map .error) → Balks s ω (t.snoc l) c q

/-- What a write comes to. Where a conversion fails, the layers outside it map the error. -/
inductive Stack.Writes (s : S.El) (ω : Ω) :
    {k : Face β} → Stack Ω r k → k.A.El → Except Panic (Except k.E.El S.El) → Prop
  | through {k : Face β} {writer : Writer Ω S k.E k.A} {get : S.El → Conv Ω k.F.El k.B.El}
    {p : Layers Ω k k'} {a : k.A.El} :
    p.Descends s ω (.base writer get : Stack Ω r k) c a → (writer.write a s).result ω = .ok (.ok s') →
    Writes s ω (p.onto (.base writer get)) c (.ok (.ok s'))
  | stopped {u : Stack Ω r k} {p : Layers Ω k k'} : p.Descends s ω u c a → u.Balks s ω a q →
    Writes s ω (p.onto u) c ((p.writeErrors ω q).map .error)

variable {k k' : Face β} {s : S.El} {ω : Ω}

namespace Layers

variable {u : Stack Ω r k}

theorem read_onto_of_stop {q : Except Panic k.F.El} (h : (u.read s).result ω = q.map .error)
    (p : Layers Ω k k') : ((p.onto u).read s).result ω = (p.readErrors ω q).map .error := by
  induction p with
  | nil => exact h
  | snoc p l ih =>
    rw [onto, Stack.read_snoc]
    exact Conv.result_bind_of_stop (Conv.result_mapError_of_stop ih l.readError) l.get

end Layers

namespace Stack

variable {t : Stack Ω r k} {q : Except Panic (Except k.F.El k.B.El)}

theorem Reaches.result_read (h : t.Reaches s ω q) : (t.read s).result ω = q := by
  induction h with
  | base h => rwa [read_base]
  | snoc _ hl ih =>
    rw [read_snoc, Conv.result_bind, Conv.result_mapError_eq_ok.2 ih]
    exact hl

theorem Reads.result_read (h : t.Reads s ω q) : (t.read s).result ω = q := by
  cases h with
  | through h => exact h.result_read
  | stopped h => exact Layers.read_onto_of_stop h.result_read _

theorem Reaches.reads (h : t.Reaches s ω q) : t.Reads s ω q := by
  obtain ⟨b, rfl⟩ | ⟨q, rfl⟩ := Conv.value_or_stop q
  · exact .through h
  · exact .stopped (p := .nil) h

theorem exists_reads (t : Stack Ω r k) : ∃ q, t.Reads s ω q := by
  induction t with
  | base writer get => exact ⟨_, (Reaches.base rfl).reads⟩
  | snoc t l ih =>
    obtain ⟨q, h⟩ := ih
    cases h with
    | through h => exact ⟨_, (h.snoc rfl).reads⟩
    | @stopped _ _ q u p h => exact ⟨_, .stopped (p := p.snoc l) h⟩

theorem result_read_eq_iff : (t.read s).result ω = q ↔ t.Reads s ω q := by
  refine ⟨?_, Reads.result_read⟩
  rintro rfl
  obtain ⟨q, h⟩ := t.exists_reads (s := s) (ω := ω)
  rwa [h.result_read]

end Stack

namespace Setter

variable {t : Stack Ω r k} {w : Setter Ω k k'} {c : k'.A.El} {q : Except Panic (Except k'.E.El k.A.El)}

theorem Makes.result_convert (h : w.Makes s ω t c q) : (w.convert (t.read s) c).result ω = q := by
  cases h with
  | blind h => exact h
  | seeing hr h =>
    rw [convert, Conv.result_bind, Conv.result_mapError_eq_ok.2 hr.result_read]
    exact h
  | unseen hr =>
    exact Conv.result_bind_of_stop (Conv.result_mapError_of_stop hr.result_read _) _

theorem exists_makes (t : Stack Ω r k) (w : Setter Ω k k') (c : k'.A.El) : ∃ q, w.Makes s ω t c q := by
  cases w with
  | blind set => exact ⟨_, .blind rfl⟩
  | seeing crossError set =>
    obtain ⟨q, h⟩ := t.exists_reads (s := s) (ω := ω)
    obtain ⟨b, rfl⟩ | ⟨q, rfl⟩ := Conv.value_or_stop q
    · exact ⟨_, .seeing h rfl⟩
    · exact ⟨_, .unseen h⟩

end Setter

namespace Layers.Descends

variable {u : Stack Ω r k} {p : Layers Ω k k'} {c : k'.A.El} {a : k.A.El}

theorem write_onto (h : p.Descends s ω u c a) {s' : S.El} (hu : (u.write a s).result ω = .ok (.ok s')) :
    ((p.onto u).write c s).result ω = .ok (.ok s') := by
  induction h with
  | nil => exact hu
  | snoc hl _ ih =>
    rw [onto, Stack.write_snoc, Conv.result_bind, hl.result_convert]
    exact Conv.result_mapError_eq_ok.2 (ih hu)

theorem write_onto_of_stop (h : p.Descends s ω u c a) {q : Except Panic k.E.El}
    (hu : (u.write a s).result ω = q.map .error) :
    ((p.onto u).write c s).result ω = (p.writeErrors ω q).map .error := by
  induction h with
  | nil => exact hu
  | snoc hl _ ih =>
    rw [onto, Stack.write_snoc, Conv.result_bind, hl.result_convert]
    exact Conv.result_mapError_of_stop (ih hu) _

end Layers.Descends

namespace Stack

variable {t : Stack Ω r k} {a : k.A.El}

theorem Balks.result_write {q : Except Panic k.E.El} (h : t.Balks s ω a q) :
    (t.write a s).result ω = q.map .error := by
  cases h with
  | base h => rwa [write_base]
  | snoc h =>
    rw [write_snoc]
    exact Conv.result_bind_of_stop h.result_convert _

variable {q : Except Panic (Except k.E.El S.El)}

theorem Writes.result_write (h : t.Writes s ω a q) : (t.write a s).result ω = q := by
  cases h with
  | through hp h => exact hp.write_onto (by rwa [write_base])
  | stopped hp h => exact hp.write_onto_of_stop h.result_write

theorem exists_writes (t : Stack Ω r k) (a : k.A.El) : ∃ q, t.Writes s ω a q := by
  induction t with
  | base writer get =>
    obtain ⟨s', h⟩ | ⟨q, h⟩ := Conv.value_or_stop ((writer.write a s).result ω)
    · exact ⟨_, .through (p := .nil) .nil h⟩
    · exact ⟨_, .stopped (p := .nil) .nil (.base h)⟩
  | snoc t l ih =>
    obtain ⟨q, hl⟩ := l.setter.exists_makes (s := s) (ω := ω) t a
    obtain ⟨b, rfl⟩ | ⟨q, rfl⟩ := Conv.value_or_stop q
    · obtain ⟨q, h⟩ := ih b
      cases h with
      | through hp h => exact ⟨_, .through (p := .snoc _ l) (.snoc hl hp) h⟩
      | stopped hp h => exact ⟨_, .stopped (p := .snoc _ l) (.snoc hl hp) h⟩
    · exact ⟨_, .stopped (p := .nil) .nil (.snoc hl)⟩

theorem result_write_eq_iff : (t.write a s).result ω = q ↔ t.Writes s ω a q := by
  refine ⟨?_, Writes.result_write⟩
  rintro rfl
  obtain ⟨q, h⟩ := t.exists_writes (s := s) (ω := ω) a
  rwa [h.result_write]

section

variable {j : Journal β} {x : Scene β Ω} {R : Ty β} (t : Stack Ω r k) (f : FiberId) (env : Any β)

/-- A read of a stack comes out as it is routed, and so does a write, whatever the cell holds. Nothing
that is done through the stack reaches any other cell. -/
theorem routes (h : (j.entry x.store r.cell).current = ⟨S, s⟩) :
    (∀ o j', (t.view.get : Tx Ω R k.F k.B).tree.Evaluates f env j [x] o j' ↔
      ∃ q, t.Reads s x.world q ∧ o = View.answer q ∧
        j' = j.put r.cell (j.entry x.store r.cell)) ∧
    (∀ a o j', (t.view.set a : Tx Ω R k.E .unit).tree.Evaluates f env j [x] o j' ↔
      ∃ q, t.Writes s x.world a q ∧
        (o, j') = j.touch x.store r.cell fun _ => View.store .unit <$> q) ∧
    ∀ u, t.view.Performs R u → ∀ l o j', u.Evaluates f env j l o j' →
      ∀ c ≠ r.cell, j'.entries[c]? = j.entries[c]? := by
  have e : t.view.ref.cell = r.cell := congrArg Ref.cell t.view_ref
  rw [← e] at h ⊢
  refine ⟨fun o j' => ?_, fun a o j' => ?_, fun u hu l o j' he c hc => hu.getElem?_entries he hc⟩
  · rw [View.evaluates_get_iff h]
    simp only [← result_read_eq_iff, exists_eq_left', read]
  · rw [View.evaluates_set_iff h]
    simp only [← result_write_eq_iff, exists_eq_left', write]

end

end Stack

section

open Scenario (Base)

def Face.marked : Face Base := ⟨.list .nat, .list .nat, .nat, .nat⟩

def Layer.marking (n : Nat) (setter : Setter Unit .marked .marked) : Layer Unit .marked .marked where
  writeError := fun (e : List Nat) => pure (e ++ [n])
  readError := fun (e : List Nat) => pure (e ++ [n + 1])
  setter
  get b := pure b

def Setter.handOn : Setter Unit .marked .marked := .blind fun c => pure c

def Setter.add : Setter Unit .marked .marked :=
  .seeing (fun (e : List Nat) => pure (e ++ [22])) fun (c b : Nat) => pure (c + b)

def Stack.wary : Stack Unit (⟨⟨1⟩⟩ : Ref (.nat : Ty Base)) .marked :=
  .base (.replace fun a => pure a) fun (s : Nat) => if s < 5 then throw ([0] : List Nat) else pure s

def Stack.crossing : Stack Unit (⟨⟨1⟩⟩ : Ref (.nat : Ty Base)) .marked :=
  wary |>.snoc (.marking 10 .handOn) |>.snoc (.marking 20 .add) |>.snoc (.marking 30 .handOn)

theorem routes_crossing :
    let x : Scene Base Unit := ⟨{}, ()⟩
    let y : Entry Base := { expected := ⟨⟨1⟩, 0, .unit⟩, pending := some ⟨.nat, (3 : Nat)⟩ }
    let j : Journal Base := ({} : Journal Base).put ⟨1⟩ y
    (j.entry x.store ⟨1⟩).current = ⟨.nat, (3 : Nat)⟩ ∧
      (Stack.crossing.view.get : Tx Unit .unit (.list .nat) .nat).tree.Evaluates ⟨1⟩ .unit j [x]
        (.failure ⟨.list .nat, ([0, 11, 21, 31] : List Nat)⟩) j ∧
      (Stack.crossing.view.set (7 : Nat) : Tx Unit .unit (.list .nat) .unit).tree.Evaluates ⟨1⟩ .unit j [x]
        (.failure ⟨.list .nat, ([0, 11, 22, 30] : List Nat)⟩) j := by
  -- The write stops at the read that it makes half way down. Up to there the error meets the read mapper
  -- below, then it crosses over and meets the write mapper outside. The read takes it through all read
  -- mappers.
  intro x y j
  have hy : j.entry x.store ⟨1⟩ = y := Journal.entry_put_self
  have hx : (j.entry x.store ⟨1⟩).current = ⟨.nat, (3 : Nat)⟩ := by rw [hy]; rfl
  have hj : j.put ⟨1⟩ (j.entry x.store ⟨1⟩) = j := by rw [hy]; exact Journal.put_put
  obtain ⟨hget, hset, -⟩ := Stack.crossing.routes ⟨1⟩ .unit (R := .unit) hx
  have hr : Stack.crossing.Reads (S := .nat) (3 : Nat) () (.ok (.error ([0, 11, 21, 31] : List Nat))) :=
    Stack.result_read_eq_iff.1 rfl
  have hw : Stack.crossing.Writes (S := .nat) (3 : Nat) () (7 : Nat)
      (.ok (.error ([0, 11, 22, 30] : List Nat))) :=
    Stack.result_write_eq_iff.1 rfl
  refine ⟨hx, (hget _ _).2 ⟨_, hr, rfl, hj.symm⟩, (hset _ _ _).2 ⟨_, hw, ?_⟩⟩
  exact Prod.ext rfl hj.symm

end

end TransactionalMemory
