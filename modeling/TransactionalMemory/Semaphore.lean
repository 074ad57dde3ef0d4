import TransactionalMemory.Ref

namespace TransactionalMemory.Semaphore

variable {β : Type} [Universe β] {Ω : Type} {R E : Ty β}

/-- The number of permits a semaphore can count to. -/
def limit : Nat := UInt64.size - 1

def permits (s : Semaphore) : Ref (.nat : Ty β) := ⟨s.cell⟩

def make (n : Nat) : Tx Ω R E (.semaphore : Ty β) :=
  (Ref.make n : Tx Ω R E (.ref .nat)).map fun r => pure (⟨r.cell⟩ : Semaphore)

def available (s : Semaphore) : Tx Ω R E (.nat : Ty β) := (permits s).get

def acquire (s : Semaphore) (n : Nat) : Tx Ω R E (.unit : Ty β) :=
  (available s).bind fun (free : Nat) =>
    pure (if n ≤ free then (permits s).set (show Nat from free - n) else .retry)

def release (s : Semaphore) (n : Nat) : Tx Ω R E (.unit : Ty β) :=
  (available s).bind fun (free : Nat) =>
    pure (if free + n ≤ limit then (permits s).set (show Nat from free + n)
      else .haltMessage "semaphore permit count overflowed")

end TransactionalMemory.Semaphore
