import TransactionalMemory.Scenario.Form
import TransactionalMemory.View

namespace TransactionalMemory.Scenario

structure ViewForm where
  cell : CellId
  layers : List Layer

/-- Steps that user code wants run before it goes on. -/
structure Request where
  who : String
  steps : List Step

structure World where
  names : Std.ExtTreeMap String Val := ∅
  counters : Std.ExtTreeMap String Nat := ∅
  views : Std.ExtTreeMap String ViewForm := ∅
  requests : List Request := []

namespace World

def bind (w : World) (name : String) (v : Val) : World := { w with names := w.names.insert name v }

def count (w : World) (counter : String) : Nat × World :=
  let n := (w.counters[counter]?).getD 0 + 1
  (n, { w with counters := w.counters.insert counter n })

end World

abbrev Program := Tx World V V V

/-- What a form is built in: its variables, and what its hole stands for. -/
structure Scope where
  vars : Expr.Vars := []
  hole : Option Program := none

def Scope.set (σ : Scope) (x : String) (v : Val) : Scope := { σ with vars := (x, v) :: σ.vars }

def Scope.eval (σ : Scope) (e : Expr) : Code World Val :=
  fun w => e.eval (w.names[·]?) σ.vars

def Scope.evalAs {α : Type} (σ : Scope) (e : Expr) (f : Val → Eval α) : Code World α := do
  f (← σ.eval e)

namespace ViewForm

abbrev Conversion := Val → Conv World Val Val

def one (x : String) (e : Expr) (v : Val) : Code World Val := Scope.eval { vars := [(x, v)] } e

def checked (vars : Expr.Vars) (e : Expr) : Conv World Val Val :=
  ExceptT.mk (Scope.evalAs { vars } e (·.asResult "result"))

def setter (l : Layer) : Conversion := fun v => checked [("x", v)] l.set

def getter (l : Layer) : Conversion := fun v => checked [("x", v)] l.get

def amender (l : Layer) : Val → Conversion := fun v s => checked [("x", v), ("s", s)] l.set

abbrev Lens := View World V V V V V

def wrap (v : Lens) (l : Layer) : Lens :=
  match l.kind with
  | .fold => v.fold (one "e" l.ea) (one "e" l.eb) (setter l) (getter l)
  | .foldAll => v.foldAll (one "e" l.ea) (one "e" l.eb) (one "e" l.ec) (amender l) (getter l)
  | .map => v.map (one "x" l.get)
  | .mapEither => v.mapEither (getter l)
  | .contramap => v.contramap (one "x" l.set)
  | .contramapEither => v.contramapEither (setter l)
  | .dimap => v.dimap (one "x" l.set) (one "x" l.get)
  | .dimapError => v.dimapError (one "e" l.ea) (one "e" l.eb)

def base (r : Ref V) (l : Layer) : Lens :=
  match l.kind with
  | .fold => r.fold (setter l) (getter l)
  | .foldAll => r.foldAll (amender l) (getter l)
  | _ => wrap r.view l

def lens (f : ViewForm) : Lens :=
  match f.layers with
  | [] => Ref.view ⟨f.cell⟩
  | l :: ls => ls.foldl wrap (base ⟨f.cell⟩ l)

end ViewForm
end TransactionalMemory.Scenario
