namespace TransactionalMemory

structure Clock where
  current : UInt64 := 0
  deriving DecidableEq

namespace Clock

inductive Fault
  | overflow
  deriving DecidableEq

def Fault.message : Fault → String
  | .overflow => "attempt to add with overflow"

/-- Moves the clock on and gives its new reading. The step past the largest reading wraps the clock
around to zero and gives nothing. -/
def next (c : Clock) : Except Fault UInt64 × Clock :=
  let r := c.current + 1
  (if r = 0 then .error .overflow else .ok r, ⟨r⟩)

end Clock
end TransactionalMemory
