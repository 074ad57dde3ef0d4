import TransactionalMemory.Tree

namespace TransactionalMemory

/-- A transaction that needs an environment `R`, fails with `E` and succeeds with `A`. Making one
has no effect. -/
structure Tx {β : Type} [Universe β] (Ω : Type) (R E A : Ty β) where
  tree : Tree β Ω

namespace Tx

variable {β : Type} [Universe β] {Ω : Type} {R E A B : Ty β}

def cont (t : Ty β) (f : t.El → Code Ω (Tree β Ω)) (ω : Ω) (v : Any β) : Tree β Ω :=
  match v.as t with
  | some a => .ofCode (f a) ω
  | none => .done (mismatch t)

def perform (f : Ω → Except Panic A.El × Ω) : Tx Ω R E A :=
  ⟨.effect fun ω _ _ => let (r, ω') := f ω; (r.map fun a => .success ⟨A, a⟩, ω')⟩

def succeed (a : A.El) : Tx Ω R E A := ⟨.done (.success ⟨A, a⟩)⟩

/-- Succeeds with a value that is given away. It belongs into a continuation, which makes it anew. -/
def succeedOnce (a : A.El) : Tx Ω R E A := ⟨.once ⟨A, a⟩⟩

def succeedWith (f : Code Ω A.El) : Tx Ω R E A := perform fun ω => (f ω, ω)

def fail (e : E.El) : Tx Ω R E A := ⟨.done (.failure ⟨E, e⟩)⟩

def failWith (f : Code Ω E.El) : Tx Ω R E A :=
  ⟨.effect fun ω _ _ => ((f ω).map fun e => .failure ⟨E, e⟩, ω)⟩

def halt (d : Defect) : Tx Ω R E A := ⟨.done (.halt d)⟩

def haltMessage (m : String) : Tx Ω R E A := halt (.message m)

def retry : Tx Ω R E A := ⟨.done .retry⟩

def interrupt : Tx Ω R E A := ⟨.effect fun ω f _ => (.ok (.interrupt f), ω)⟩

def fiberId : Tx Ω R E (.fiber : Ty β) := ⟨.effect fun ω f _ => (.ok (.success ⟨.fiber, f⟩), ω)⟩

/-- Makes the transaction only when it runs. -/
def delay (f : Code Ω (Tx Ω R E A)) : Tx Ω R E A :=
  ⟨(Tree.done (.success .unit)).onSuccess fun ω _ => .ofCode (tree <$> f) ω⟩

def asks (f : R.El → Code Ω A.El) : Tx Ω R E A :=
  ⟨.effect fun ω _ env =>
    (match env.as R with
      | some r => (f r ω).map fun a => .success ⟨A, a⟩
      | none => .ok (mismatch R), ω)⟩

def environment : Tx Ω R E R := asks pure

def bind (t : Tx Ω R E A) (f : A.El → Code Ω (Tx Ω R E B)) : Tx Ω R E B :=
  ⟨t.tree.onSuccess (cont A fun a => tree <$> f a)⟩

/-- Like `bind`, with a continuation that is used up. It belongs into another continuation. -/
def bindOnce (t : Tx Ω R E A) (f : A.El → Code Ω (Tx Ω R E B)) : Tx Ω R E B :=
  ⟨t.tree.onSuccessOnce (cont A fun a => tree <$> f a)⟩

def map (t : Tx Ω R E A) (f : A.El → Code Ω B.El) : Tx Ω R E B :=
  ⟨t.tree.onSuccess (cont A fun a => (fun b => .done (.success ⟨B, b⟩)) <$> f a)⟩

def asksTx (f : R.El → Code Ω (Tx Ω R E A)) : Tx Ω R E A := environment.bind f

def as (t : Tx Ω R E A) (b : B.El) : Tx Ω R E B := t.map fun _ => pure b

def void (t : Tx Ω R E A) : Tx Ω R E (.unit : Ty β) := t.as (show Unit from ())

def provide {R' : Ty β} (t : Tx Ω R E A) (r : R.El) : Tx Ω R' E A :=
  ⟨t.tree.provide fun _ => pure (.ok ⟨R, r⟩)⟩

def provideFrom {R' : Ty β} (t : Tx Ω R E A) (f : R'.El → Code Ω R.El) : Tx Ω R' E A :=
  ⟨t.tree.provide fun env =>
    match env.as R' with
    | some r => (fun r => .ok ⟨R, r⟩) <$> f r
    | none => pure (.error (.typeMismatch R'.name))⟩

def check (c : Bool) : Tx Ω R E (.unit : Ty β) := if c then succeed (show Unit from ()) else retry

def checkWith (f : Code Ω Bool) : Tx Ω R E (.unit : Ty β) := delay (check <$> f)

def onlyIf (t : Tx Ω R E A) (c : Bool) : Tx Ω R E (.unit : Ty β) :=
  if c then t.void else succeed (show Unit from ())

end Tx
end TransactionalMemory
