import TransactionalMemory.Ref

namespace TransactionalMemory

variable {β : Type} [Universe β] {Ω : Type} {ε ε' α : Type}

abbrev Conv (Ω ε α : Type) := ExceptT ε (Code Ω) α

def Conv.mapError (m : Conv Ω ε α) (f : ε → Code Ω ε') : Conv Ω ε' α :=
  ExceptT.mk do
    match ← m.run with
    | .ok a => pure (.ok a)
    | .error e => .error <$> f e

/-- How a view writes: by replacing the stored value, or by amending the one that is there. -/
inductive Writer (Ω : Type) (S E A : Ty β)
  | replace (f : A.El → Conv Ω E.El S.El)
  | amend (f : A.El → S.El → Conv Ω E.El S.El)

/-- A view of a cell that holds an `S`. It reads `B`, failing with `F`, and writes `A`, failing
with `E`. -/
structure View (Ω : Type) (S E F A B : Ty β) where
  ref : Ref S
  read : S.El → Conv Ω F.El B.El
  writer : Writer Ω S E A

namespace Writer

variable {S E E' A C : Ty β}

def write : Writer Ω S E A → A.El → S.El → Conv Ω E.El S.El
  | replace f, a, _ => f a
  | amend f, a, s => f a s

def after (w : Writer Ω S E A) (ea : E.El → Code Ω E'.El) (set : C.El → Conv Ω E'.El A.El) :
    Writer Ω S E' C :=
  match w with
  | replace f => replace fun c => do Conv.mapError (f (← set c)) ea
  | amend f => amend fun c s => do Conv.mapError (f (← set c) s) ea

end Writer

namespace View

variable {R S E F E' F' A B C D : Ty β}

def get (v : View Ω S E F A B) : Tx Ω R F B :=
  ⟨v.ref.access fun s => (fun
    | .ok b => .leave (.success ⟨B, b⟩)
    | .error e => .leave (.failure ⟨F, e⟩)) <$> (v.read s).run⟩

def store (answer : Any β) : Except E.El S.El → Access β
  | .ok s => .write ⟨S, s⟩ answer
  | .error e => .leave (.failure ⟨E, e⟩)

def set (v : View Ω S E F A B) (a : A.El) : Tx Ω R E (.unit : Ty β) :=
  match v.writer with
  | .replace f => ⟨.touch v.ref.cell fun _ => store .unit <$> (f a).run⟩
  | .amend f => ⟨v.ref.access fun s => store .unit <$> (f a s).run⟩

def modify (v : View Ω S E E A A) (f : A.El → Code Ω (B.El × A.El)) : Tx Ω R E B :=
  ⟨v.ref.access fun s => do
    match ← (v.read s).run with
    | .error e => pure (.leave (.failure ⟨E, e⟩))
    | .ok a =>
      let (b, a') ← f a
      store ⟨B, b⟩ <$> (v.writer.write a' s).run⟩

def update (v : View Ω S E E A A) (f : A.El → Code Ω A.El) : Tx Ω R E (.unit : Ty β) :=
  v.modify fun a => (((), ·) : A.El → Unit × A.El) <$> f a

def fold (v : View Ω S E F A B) (ea : E.El → Code Ω E'.El) (eb : F.El → Code Ω F'.El)
    (set : C.El → Conv Ω E'.El A.El) (get : B.El → Conv Ω F'.El D.El) : View Ω S E' F' C D where
  ref := v.ref
  read s := do get (← Conv.mapError (v.read s) eb)
  writer := v.writer.after ea set

/-- Like `fold`, with a write that sees what a read of the inner view gives. -/
def foldAll (v : View Ω S E F A B) (ea : E.El → Code Ω E'.El) (eb : F.El → Code Ω F'.El)
    (ec : F.El → Code Ω E'.El) (set : C.El → B.El → Conv Ω E'.El A.El)
    (get : B.El → Conv Ω F'.El D.El) : View Ω S E' F' C D where
  ref := v.ref
  read s := do get (← Conv.mapError (v.read s) eb)
  writer := .amend fun c s => do
    let b ← Conv.mapError (v.read s) ec
    Conv.mapError (v.writer.write (← set c b) s) ea

def dimapEither (v : View Ω S E F A B) (set : C.El → Conv Ω E.El A.El)
    (get : B.El → Conv Ω F.El D.El) : View Ω S E F C D := v.fold pure pure set get

def mapEither (v : View Ω S E F A B) (get : B.El → Conv Ω F.El D.El) : View Ω S E F A D :=
  v.dimapEither pure get

def contramapEither (v : View Ω S E F A B) (set : C.El → Conv Ω E.El A.El) : View Ω S E F C B :=
  v.dimapEither set pure

def dimap (v : View Ω S E F A B) (set : C.El → Code Ω A.El) (get : B.El → Code Ω D.El) :
    View Ω S E F C D := v.dimapEither (fun c => set c) (fun b => get b)

def map (v : View Ω S E F A B) (get : B.El → Code Ω D.El) : View Ω S E F A D :=
  v.mapEither fun b => get b

def contramap (v : View Ω S E F A B) (set : C.El → Code Ω A.El) : View Ω S E F C B :=
  v.contramapEither fun c => set c

def dimapError (v : View Ω S E F A B) (ea : E.El → Code Ω E'.El) (eb : F.El → Code Ω F'.El) :
    View Ω S E' F' A B := v.fold ea eb pure pure

end View

namespace Ref

variable {S E F A B : Ty β}

def fold (r : Ref S) (set : A.El → Conv Ω E.El S.El) (get : S.El → Conv Ω F.El B.El) :
    View Ω S E F A B := ⟨r, get, .replace set⟩

/-- A view whose writes see the stored value. -/
def foldAll (r : Ref S) (set : A.El → S.El → Conv Ω E.El S.El) (get : S.El → Conv Ω F.El B.El) :
    View Ω S E F A B := ⟨r, get, .amend set⟩

def view (r : Ref S) : View Ω S E F S S := r.fold pure pure

end Ref
end TransactionalMemory
