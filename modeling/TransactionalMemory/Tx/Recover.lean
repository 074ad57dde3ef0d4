import TransactionalMemory.Tx.Basic

namespace TransactionalMemory.Tx

variable {β : Type} [Universe β] {Ω : Type} {R E E' A B : Ty β}

def mapError (t : Tx Ω R E A) (f : E.El → Code Ω E'.El) : Tx Ω R E' A :=
  ⟨t.tree.onFailure (cont E fun e => (fun x => .done (.failure ⟨E', x⟩)) <$> f e)⟩

def recover (t : Tx Ω R E A) (f : E.El → Code Ω (Tx Ω R E' A)) : Tx Ω R E' A :=
  ⟨t.tree.onFailure (cont E fun e => tree <$> f e)⟩

def orDieWith (t : Tx Ω R E A) (f : E.El → Code Ω Defect) : Tx Ω R E' A :=
  ⟨t.tree.onFailure (cont E fun e => (fun d => .done (.halt d)) <$> f e)⟩

def orDie (t : Tx Ω R E A) (text : E.El → String) : Tx Ω R E' A :=
  t.orDieWith fun e => pure (.message (text e))

def fold (t : Tx Ω R E A) (onFailure : E.El → Code Ω B.El) (onSuccess : A.El → Code Ω B.El) :
    Tx Ω R E' B :=
  ⟨(t.map onSuccess).tree.onFailure
    (cont E fun e => (fun b => .done (.success ⟨B, b⟩)) <$> onFailure e)⟩

def toResult (t : Tx Ω R E A) : Tx Ω R E' (.result E A) :=
  t.fold (fun e => pure (Except.error e)) (fun a => pure (Except.ok a))

/-- Continues after a success and after a failure. What fails then is not caught. -/
def foldTx (t : Tx Ω R E A) (onFailure : E.El → Code Ω (Tx Ω R E' B))
    (onSuccess : A.El → Code Ω (Tx Ω R E' B)) : Tx Ω R E' B :=
  t.toResult.bind fun r =>
    match (r : Except E.El A.El) with
    | .ok a => onSuccess a
    | .error e => onFailure e

/-- Runs `u` if `t` retries. What `t` wrote is taken back, what it read still counts. -/
def orElse (t u : Tx Ω R E A) : Tx Ω R E A := ⟨t.tree.orElse u.tree⟩

def orElseEither (t : Tx Ω R E A) (u : Tx Ω R E B) : Tx Ω R E (.either A B) :=
  (t.map fun a => pure (Sum.inl a) : Tx Ω R E (.either A B)).orElse (u.map fun b => pure (Sum.inr b))

/-- Runs `u` if `t` fails or retries. -/
def orTry (t u : Tx Ω R E A) : Tx Ω R E A :=
  ((t.toResult : Tx Ω R E (.result E A)).orElse (u.map fun a => pure (Except.ok a))).bind fun r =>
    match (r : Except E.El A.El) with
    | .ok a => pure (succeedOnce a)
    | .error _ => pure u

/-- Succeeds with nothing where `t` retries. -/
def optionally (t : Tx Ω R E A) : Tx Ω R E (.option A) :=
  ⟨(t.map fun a => pure (some a) : Tx Ω R E (.option A)).tree.onRetry fun _ =>
    (succeed (show Option A.El from none) : Tx Ω R E (.option A)).tree⟩

def someOrRetry (t : Tx Ω R E (.option A)) : Tx Ω R E A :=
  ⟨t.tree.onSuccess (cont (.option A) fun a =>
    match (a : Option A.El) with
    | some a => pure (.done (.success ⟨A, a⟩))
    | none => pure (.done .retry))⟩

def getOrRetry : Option A.El → Tx Ω R E A
  | some a => succeed a
  | none => retry

end TransactionalMemory.Tx
