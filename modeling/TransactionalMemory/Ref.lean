import TransactionalMemory.Tx.Basic

namespace TransactionalMemory

variable {β : Type} [Universe β] {Ω : Type} {R E A B : Ty β}

def Store.snapshot (s : Store β) (r : Ref A) : Except Defect A.El :=
  match (s.value r.cell).as A with
  | some a => .ok a
  | none => .error (.typeMismatch A.name)

namespace Ref

def access (r : Ref A) (f : A.El → Code Ω (Access β)) : Tree β Ω :=
  .touch r.cell fun v =>
    match v.as A with
    | some a => f a
    | none => pure (.leave (mismatch A))

def make (a : A.El) : Tx Ω R E (.ref A) :=
  ⟨.make ⟨A, a⟩ fun c => ⟨.ref A, (⟨c⟩ : Ref A)⟩⟩

def get (r : Ref A) : Tx Ω R E A := ⟨r.access fun a => pure (.leave (.success ⟨A, a⟩))⟩

def set (r : Ref A) (a : A.El) : Tx Ω R E (.unit : Ty β) :=
  ⟨.touch r.cell fun _ => pure (.write ⟨A, a⟩ .unit)⟩

def modify (r : Ref A) (f : A.El → Code Ω (B.El × A.El)) : Tx Ω R E B :=
  ⟨r.access fun a => (fun p => .write ⟨A, p.2⟩ ⟨B, p.1⟩) <$> f a⟩

def update (r : Ref A) (f : A.El → Code Ω A.El) : Tx Ω R E (.unit : Ty β) :=
  r.modify fun a => (((), ·) : A.El → Unit × A.El) <$> f a

def getAndSet (r : Ref A) (new : A.El) : Tx Ω R E A := r.modify fun old => pure (old, new)

def getAndUpdate (r : Ref A) (f : A.El → Code Ω A.El) : Tx Ω R E A :=
  r.modify fun old => (old, ·) <$> f old

def updateAndGet (r : Ref A) (f : A.El → Code Ω A.El) : Tx Ω R E A :=
  r.modify fun old => (fun new => (new, new)) <$> f old

/-- Where `f` declines, answers with `default` and keeps the value. -/
def modifySome (r : Ref A) (default : B.El) (f : A.El → Code Ω (Option (B.El × A.El))) :
    Tx Ω R E B :=
  r.modify fun old => (·.getD (default, old)) <$> f old

def updateSome (r : Ref A) (f : A.El → Code Ω (Option A.El)) : Tx Ω R E (.unit : Ty β) :=
  r.modifySome (show Unit from ()) fun old =>
    (Option.map ((), ·) : Option A.El → Option (Unit × A.El)) <$> f old

def getAndUpdateSome (r : Ref A) (f : A.El → Code Ω (Option A.El)) : Tx Ω R E A :=
  r.modify fun old => (fun new => (old, new.getD old)) <$> f old

def updateSomeAndGet (r : Ref A) (f : A.El → Code Ω (Option A.El)) : Tx Ω R E A :=
  r.modify fun old => (fun new => (new.getD old, new.getD old)) <$> f old

end Ref
end TransactionalMemory
