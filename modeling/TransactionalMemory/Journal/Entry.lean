import TransactionalMemory.Exit
import TransactionalMemory.Store

namespace TransactionalMemory

structure Entry (β : Type) [Universe β] where
  expected : Version β
  pending : Option (Any β) := none
  /-- The cell was made by the run the journal belongs to. -/
  created : Bool := false

namespace Entry

variable {β : Type} [Universe β]

def current (e : Entry β) : Any β := e.pending.getD e.expected.value

def isChanged (e : Entry β) : Bool := e.pending.isSome

def get (e : Entry β) (t : Ty β) : Except Defect t.El :=
  match e.current.as t with
  | some v => .ok v
  | none => .error (.typeMismatch t.name)

/-- Writes `v`. A write of the value a read would find changes nothing, and a write of the value the
cell was first seen with takes the pending write back. -/
def set (e : Entry β) (v : Any β) : Except Defect (Entry β) :=
  if e.current.ty = v.ty then
    if e.current.same v then .ok e
    else if e.expected.value.same v then .ok { e with pending := none }
    else .ok { e with pending := some v }
  else .error (.typeMismatch v.ty.name)

def isValid (e : Entry β) (c : CellId) (s : Store β) : Bool := (s.version c).same e.expected

end Entry
end TransactionalMemory
