import TransactionalMemory.Ref

namespace TransactionalMemory.Promise

variable {β : Type} [Universe β] {Ω : Type} {R E E' A : Ty β}

def state (p : Promise E A) : Ref (.option (.result E A)) := ⟨p.cell⟩

def make : Tx Ω R E' (.promise E A) :=
  (Ref.make none : Tx Ω R E' (.ref (.option (.result E A)))).map fun r =>
    pure (⟨r.cell⟩ : Promise E A)

def await (p : Promise E A) : Tx Ω R E A :=
  p.state.get.bind fun (r : Option (Except E.El A.El)) =>
    pure (match r with
      | none => .retry
      | some (.ok a) => .succeed a
      | some (.error e) => .fail e)

/-- Completes the promise and says whether this did it. A completed promise keeps its result. -/
def complete (p : Promise E A) (r : Except E.El A.El) : Tx Ω R E' (.bool : Ty β) :=
  p.state.modify fun (old : Option (Except E.El A.El)) =>
    (pure (match old with
      | none => (true, some r)
      | some old => (false, some old)) : Code Ω (Bool × Option (Except E.El A.El)))

def succeed (p : Promise E A) (a : A.El) : Tx Ω R E' (.bool : Ty β) := p.complete (.ok a)

def fail (p : Promise E A) (e : E.El) : Tx Ω R E' (.bool : Ty β) := p.complete (.error e)

def poll (p : Promise E A) : Tx Ω R E' (.option (.result E A)) := p.state.get

end TransactionalMemory.Promise
