import Std.Data.ExtTreeMap

/-! Serial numbers: the names of cells, fibers and whatever else is told apart by identity. -/

namespace TransactionalMemory

inductive Kind
  | cell | fiber | commit | scheduler | waker | gate | hold

/-- The serial number of a thing of one kind. Serial numbers of distinct kinds never meet. An engine counts
fibers, cells and versions with these and with natural numbers, of which there is always a next one. It asks
no `Clock`, which has readings of 64 bits only, and says nothing of the `2 ^ 64`th thing that a clock is asked
for. -/
structure Serial (k : Kind) where
  number : Nat
  deriving DecidableEq, Inhabited

namespace Serial

variable {k : Kind}

instance : Ord (Serial k) := ⟨fun a b => compare a.number b.number⟩

instance : Std.TransOrd (Serial k) where
  eq_swap {a _} := Std.OrientedOrd.eq_swap (α := Nat) (a := a.number)
  isLE_trans {a b c} :=
    Std.TransOrd.isLE_trans (α := Nat) (a := a.number) (b := b.number) (c := c.number)

instance : Std.LawfulEqOrd (Serial k) where
  eq_of_compare {a b} h := by
    cases a; cases b; exact congrArg _ (Std.LawfulEqOrd.eq_of_compare h)

def next (a : Serial k) : Serial k := ⟨a.number + 1⟩

end Serial

abbrev CellId := Serial .cell
abbrev FiberId := Serial .fiber
abbrev CommitId := Serial .commit
abbrev SchedulerId := Serial .scheduler
abbrev WakerId := Serial .waker
abbrev GateId := Serial .gate
abbrev HoldId := Serial .hold

def fiberText (f : FiberId) : String := "#" ++ toString f.number

end TransactionalMemory
