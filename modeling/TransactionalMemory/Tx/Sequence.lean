import TransactionalMemory.Tx.Basic

namespace TransactionalMemory.Tx

variable {β : Type} [Universe β] {Ω : Type} {R E A B C : Ty β}

def zipWith (t : Tx Ω R E A) (u : Tx Ω R E B) (f : A.El → B.El → Code Ω C.El) : Tx Ω R E C :=
  t.bind fun a => pure (u.bindOnce fun b => succeedOnce <$> f a b)

def zip (t : Tx Ω R E A) (u : Tx Ω R E B) : Tx Ω R E (.pair A B) :=
  t.zipWith u fun a b => pure (a, b)

def zipLeft (t : Tx Ω R E A) (u : Tx Ω R E B) : Tx Ω R E A := t.zipWith u fun a _ => pure a

def zipRight (t : Tx Ω R E A) (u : Tx Ω R E B) : Tx Ω R E B := t.bind fun _ => pure u

/-- Runs `f` on what is left of the items, with the values so far in reverse. -/
def forEachFrom {α : Type} (f : α → Code Ω (Tx Ω R E A)) :
    List α → List A.El → Code Ω (Tx Ω R E (.list A))
  | [], vs => pure (succeedOnce vs.reverse)
  | x :: xs, vs => (·.bindOnce fun v => forEachFrom f xs (v :: vs)) <$> f x

def forEach {α : Type} (xs : List α) (f : α → Code Ω (Tx Ω R E A)) : Tx Ω R E (.list A) :=
  delay (forEachFrom f xs [])

def collect (ts : List (Tx Ω R E A)) : Tx Ω R E (.list A) := forEach ts pure

def judge (p : A.El → Code Ω Bool) (v : Any β) : Code Ω (Option (Outcome β)) :=
  match v.as A with
  | some a => (fun ok => if ok then some (.success ⟨A, a⟩) else none) <$> p a
  | none => pure (some (mismatch A))

/-- Runs a transaction again and again until its value is accepted. -/
def repeatUntil (t : Tx Ω R E A) (p : A.El → Code Ω Bool) : Tx Ω R E A := ⟨t.tree.loop (judge p)⟩

end TransactionalMemory.Tx
