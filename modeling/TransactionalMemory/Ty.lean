import TransactionalMemory.Serial

namespace TransactionalMemory

/-- The types a program brings along. Their equality need not be reflexive. -/
class Universe (β : Type) where
  El : β → Type
  same : (b : β) → El b → El b → Bool
  name : β → String
  decEq : DecidableEq β

instance {β : Type} [u : Universe β] : DecidableEq β := u.decEq

/-- The codes of the types that transactions, cells and environments are made of. -/
inductive Ty (β : Type)
  | base (b : β)
  | never | unit | bool | nat | fiber | semaphore
  | ref (t : Ty β)
  | list (t : Ty β)
  | option (t : Ty β)
  | pair (s t : Ty β)
  | either (s t : Ty β)
  | result (e a : Ty β)
  | promise (e a : Ty β)
  deriving DecidableEq

variable {β : Type}

structure Ref (t : Ty β) where
  cell : CellId
  deriving DecidableEq

structure Semaphore where
  cell : CellId
  deriving DecidableEq

structure Promise (e a : Ty β) where
  cell : CellId
  deriving DecidableEq

namespace Ty

variable [Universe β]

def El : Ty β → Type
  | base b => Universe.El b
  | never => Empty
  | unit => Unit
  | bool => Bool
  | nat => Nat
  | fiber => FiberId
  | semaphore => Semaphore
  | ref t => Ref t
  | list t => List t.El
  | option t => Option t.El
  | pair s t => s.El × t.El
  | either s t => s.El ⊕ t.El
  | result e a => Except e.El a.El
  | promise e a => Promise e a

/-- Equality as a cell sees it: structural, and at the leaves whatever the program says. -/
def same : (t : Ty β) → t.El → t.El → Bool
  | base b, x, y => Universe.same b x y
  | never, _, _ => true
  | unit, _, _ => true
  | bool, x, y => (show Bool from x) == y
  | nat, x, y => (show Nat from x) == y
  | fiber, x, y => (show FiberId from x) == y
  | semaphore, x, y => (show Semaphore from x) == y
  | ref t, x, y => (show Ref t from x) == y
  | list t, x, y => List.isEqv x y t.same
  | option t, x, y =>
    match (x : Option t.El), (y : Option t.El) with
    | none, none => true
    | some a, some b => t.same a b
    | _, _ => false
  | pair s t, x, y => s.same x.1 y.1 && t.same x.2 y.2
  | either s t, x, y =>
    match (x : s.El ⊕ t.El), (y : s.El ⊕ t.El) with
    | .inl a, .inl b => s.same a b
    | .inr a, .inr b => t.same a b
    | _, _ => false
  | result e a, x, y =>
    match (x : Except e.El a.El), (y : Except e.El a.El) with
    | .error u, .error v => e.same u v
    | .ok u, .ok v => a.same u v
    | _, _ => false
  | promise e a, x, y => (show Promise e a from x) == y

def name : Ty β → String
  | base b => Universe.name b
  | never => "Never"
  | unit => "()"
  | bool => "bool"
  | nat => "Nat"
  | fiber => "Fiber"
  | semaphore => "Semaphore"
  | ref t => "Ref<" ++ t.name ++ ">"
  | list t => "List<" ++ t.name ++ ">"
  | option t => "Option<" ++ t.name ++ ">"
  | pair s t => "(" ++ s.name ++ ", " ++ t.name ++ ")"
  | either s t => "Either<" ++ s.name ++ ", " ++ t.name ++ ">"
  | result e a => "Result<" ++ a.name ++ ", " ++ e.name ++ ">"
  | promise e a => "Promise<" ++ e.name ++ ", " ++ a.name ++ ">"

end Ty

structure Any (β : Type) [Universe β] where
  ty : Ty β
  val : ty.El

namespace Any

variable [Universe β]

def as (t : Ty β) (a : Any β) : Option t.El :=
  if h : a.ty = t then some (h ▸ a.val) else none

def same (a b : Any β) : Bool :=
  match b.as a.ty with
  | some v => a.ty.same a.val v
  | none => false

@[simp] theorem as_self (t : Ty β) (v : t.El) : (Any.mk t v).as t = some v := by simp [as]

theorem as_eq_some {t : Ty β} {a : Any β} {v : t.El} (h : a.as t = some v) : a = ⟨t, v⟩ := by
  obtain ⟨s, w⟩ := a
  unfold as at h
  split at h
  · rename_i e; subst e; simpa using h
  · contradiction

theorem as_isSome {t : Ty β} {a : Any β} : (a.as t).isSome ↔ a.ty = t := by
  unfold as; split <;> simp_all

theorem exists_eq_mk {t : Ty β} {a : Any β} (h : a.ty = t) : ∃ v, a = ⟨t, v⟩ := by
  subst h
  exact ⟨a.val, rfl⟩

def unit : Any β := ⟨.unit, ()⟩

end Any
end TransactionalMemory
