import TransactionalMemory.Journal.Basic

/-! Transactions as trees. A tree holds its user code as functions, so that it can be run any number
of times, and says nothing of the types of the values that pass through it. -/

namespace TransactionalMemory

/-- User code that gives an `α` or panics. It may look at its surroundings `Ω` and nothing else. -/
abbrev Code (Ω α : Type) := ReaderT Ω (Except Panic) α

inductive Tree (β : Type) [Universe β] (Ω : Type)
  /-- A step beside the journal, given the fiber and the environment. It may change its surroundings. -/
  | effect (f : Ω → FiberId → Any β → Except Panic (Outcome β) × Ω)
  | touch (c : CellId) (f : Any β → Code Ω (Access β))
  | make (v : Any β) (answer : CellId → Any β)
  /-- User code that panicked where a tree was wanted. -/
  | crash (p : Panic)
  /-- Gives a value away that is there once. -/
  | once (v : Any β)
  | onSuccess (t : Tree β Ω) (k : Ω → Any β → Tree β Ω)
  /-- Goes on with a continuation that is there once. -/
  | onSuccessOnce (t : Tree β Ω) (k : Ω → Any β → Tree β Ω)
  | onFailure (t : Tree β Ω) (k : Ω → Any β → Tree β Ω)
  | onRetry (t : Tree β Ω) (k : Ω → Tree β Ω)
  | orElse (l r : Tree β Ω)
  | provide (t : Tree β Ω) (f : Any β → Code Ω (Except Defect (Any β)))
  /-- Runs a tree until its value is judged with an outcome. -/
  | loop (t : Tree β Ω) (judge : Any β → Code Ω (Option (Outcome β)))

namespace Tree

variable {β : Type} [Universe β] {Ω : Type}

def done (o : Outcome β) : Tree β Ω := effect fun ω _ _ => (.ok o, ω)

def ofCode (c : Code Ω (Tree β Ω)) (ω : Ω) : Tree β Ω :=
  match c ω with
  | .ok t => t
  | .error p => crash p

/-- What a loop goes on with after a round: with itself, if the value of the round is not judged. -/
def again (t : Tree β Ω) (judge : Any β → Code Ω (Option (Outcome β))) (ω : Ω) (v : Any β) :
    Tree β Ω :=
  match judge v ω with
  | .ok none => loop t judge
  | .ok (some (.success v)) => once v
  | .ok (some o) => done o
  | .error p => crash p

end Tree
end TransactionalMemory
