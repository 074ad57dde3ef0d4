import TransactionalMemory.View

namespace TransactionalMemory

structure Face (β : Type) where
  E : Ty β
  F : Ty β
  A : Ty β
  B : Ty β

variable {β : Type} [Universe β] {Ω : Type} {ε ε' α γ : Type}

namespace Conv

def result (m : Conv Ω ε α) (ω : Ω) : Except Panic (Except ε α) := m.run ω

variable {ω : Ω}

theorem result_bind (m : Conv Ω ε α) (f : α → Conv Ω ε γ) : (m >>= f).result ω =
    match m.result ω with
    | .ok (.ok a) => (f a).result ω
    | .ok (.error e) => .ok (.error e)
    | .error p => .error p := by
  have h : (m >>= f).result ω =
      (m.result ω).bind fun r => (ExceptT.bindCont f r : Code Ω (Except ε γ)) ω := rfl
  rw [h]
  cases m.result ω with
  | error p => rfl
  | ok r => cases r <;> rfl

theorem result_mapError (m : Conv Ω ε α) (f : ε → Code Ω ε') : (m.mapError f).result ω =
    match m.result ω with
    | .ok (.ok a) => .ok (.ok a)
    | .ok (.error e) => (f e ω).map .error
    | .error p => .error p := by
  change (m.result ω).bind _ = _
  cases m.result ω with
  | error p => rfl
  | ok r => cases r <;> rfl

theorem result_bind_eq_ok {m : Conv Ω ε α} {f : α → Conv Ω ε γ} {c : γ} :
    (m >>= f).result ω = .ok (.ok c) ↔
      ∃ a, m.result ω = .ok (.ok a) ∧ (f a).result ω = .ok (.ok c) := by
  rw [result_bind]
  cases m.result ω with
  | error p => simp
  | ok r => cases r <;> simp

theorem result_mapError_eq_ok {m : Conv Ω ε α} {f : ε → Code Ω ε'} {a : α} :
    (m.mapError f).result ω = .ok (.ok a) ↔ m.result ω = .ok (.ok a) := by
  rw [result_mapError]
  cases m.result ω with
  | error p => simp
  | ok r =>
    cases r with
    | ok b => simp
    | error e => cases h : f e ω <;> simp [h, Except.map]

theorem value_or_stop (q : Except Panic (Except ε α)) :
    (∃ a, q = .ok (.ok a)) ∨ ∃ p : Except Panic ε, q = p.map .error := by
  cases q with
  | error p => exact .inr ⟨.error p, rfl⟩
  | ok r =>
    cases r with
    | ok a => exact .inl ⟨a, rfl⟩
    | error e => exact .inr ⟨.ok e, rfl⟩

section

variable {m : Conv Ω ε α} {q : Except Panic ε} (h : m.result ω = q.map .error)
include h

theorem result_bind_of_stop (f : α → Conv Ω ε γ) : (m >>= f).result ω = q.map .error := by
  rw [result_bind, h]
  cases q <;> rfl

theorem result_mapError_of_stop (f : ε → Code Ω ε') :
    (m.mapError f).result ω = (q >>= fun e => f e ω).map .error := by
  rw [result_mapError, h]
  cases q <;> rfl

end

end Conv

inductive Setter (Ω : Type) (k k' : Face β)
  | blind (set : k'.A.El → Conv Ω k'.E.El k.A.El)
  | seeing (crossError : k.F.El → Code Ω k'.E.El) (set : k'.A.El → k.B.El → Conv Ω k'.E.El k.A.El)

structure Layer (Ω : Type) (k k' : Face β) where
  writeError : k.E.El → Code Ω k'.E.El
  readError : k.F.El → Code Ω k'.F.El
  setter : Setter Ω k k'
  get : k.B.El → Conv Ω k'.F.El k'.B.El

/-- A view that is made of a reference in some number of layers. -/
inductive Stack (Ω : Type) {S : Ty β} (r : Ref S) : Face β → Type
  | base (writer : Writer Ω S k.E k.A) (get : S.El → Conv Ω k.F.El k.B.El) : Stack Ω r k
  | snoc (t : Stack Ω r k) (l : Layer Ω k k') : Stack Ω r k'

variable {S : Ty β} {r : Ref S} {k k' : Face β}

namespace Setter

def write : Setter Ω k k' → k'.A.El → k.B.El → Conv Ω k'.E.El k.A.El
  | blind set, c, _ => set c
  | seeing _ set, c, b => set c b

def convert (read : Conv Ω k.F.El k.B.El) : Setter Ω k k' → k'.A.El → Conv Ω k'.E.El k.A.El
  | blind set, c => set c
  | seeing crossError set, c => do set c (← read.mapError crossError)

end Setter

def Layer.onto (l : Layer Ω k k') (v : View Ω S k.E k.F k.A k.B) :
    View Ω S k'.E k'.F k'.A k'.B :=
  match l.setter with
  | .blind set => v.fold l.writeError l.readError set l.get
  | .seeing crossError set => v.foldAll l.writeError l.readError crossError set l.get

namespace Stack

def view : {k : Face β} → Stack Ω r k → View Ω S k.E k.F k.A k.B
  | _, base (.replace set) get => r.fold set get
  | _, base (.amend set) get => r.foldAll set get
  | _, snoc t l => l.onto t.view

def read (t : Stack Ω r k) (s : S.El) : Conv Ω k.F.El k.B.El := t.view.read s

def write (t : Stack Ω r k) (a : k.A.El) (s : S.El) : Conv Ω k.E.El S.El := t.view.writer.write a s

variable {s : S.El}

theorem view_ref (t : Stack Ω r k) : t.view.ref = r := by
  induction t with
  | base writer get => cases writer <;> rfl
  | snoc t l ih =>
    obtain ⟨writeError, readError, setter, get⟩ := l
    cases setter <;> exact ih

theorem read_base {writer : Writer Ω S k.E k.A} {get : S.El → Conv Ω k.F.El k.B.El} :
    (base writer get : Stack Ω r k).read s = get s := by
  cases writer <;> rfl

theorem write_base {writer : Writer Ω S k.E k.A} {get : S.El → Conv Ω k.F.El k.B.El} {a : k.A.El} :
    (base writer get : Stack Ω r k).write a s = writer.write a s := by
  cases writer <;> rfl

theorem read_snoc {t : Stack Ω r k} {l : Layer Ω k k'} :
    (t.snoc l).read s = (t.read s).mapError l.readError >>= l.get := by
  obtain ⟨writeError, readError, setter, get⟩ := l
  cases setter <;> rfl

theorem write_snoc {t : Stack Ω r k} {l : Layer Ω k k'} {c : k'.A.El} : (t.snoc l).write c s =
    l.setter.convert (t.read s) c >>= fun a => (t.write a s).mapError l.writeError := by
  obtain ⟨writeError, readError, setter, get⟩ := l
  cases setter with
  | blind set =>
    change (t.view.writer.after writeError set).write c s =
      set c >>= fun a => (t.view.writer.write a s).mapError writeError
    cases t.view.writer <;> rfl
  | seeing crossError set =>
    exact (bind_assoc _ _ _).symm

end Stack
end TransactionalMemory
