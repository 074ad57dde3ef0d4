import TransactionalMemory.Serial
import TransactionalMemory.Ty

namespace TransactionalMemory

/-- A committed value of a cell. Versions are told apart by where and when they were published,
never by their values. -/
structure Version (β : Type) [Universe β] where
  cell : CellId
  time : Nat
  value : Any β

/-- The commits to wake when a cell is written, at most one for each fiber. -/
abbrev Waiting := Std.ExtTreeMap FiberId CommitId

structure Cell (β : Type) [Universe β] where
  version : Version β
  waiting : Waiting := ∅

/-- The committed state of all cells. A cell that was never made reads as a blank. -/
structure Store (β : Type) [Universe β] where
  cells : Std.ExtTreeMap CellId (Cell β) := ∅
  nextCell : CellId := ⟨1⟩
  now : Nat := 1

variable {β : Type} [Universe β]

namespace Version

def same (u v : Version β) : Bool := u.cell == v.cell && u.time == v.time

def blank (c : CellId) : Version β := ⟨c, 0, .unit⟩

theorem same_iff {u v : Version β} : u.same v ↔ u.cell = v.cell ∧ u.time = v.time := by
  simp [same]

end Version

namespace Store

def cell (s : Store β) (c : CellId) : Cell β := (s.cells[c]?).getD ⟨.blank c, ∅⟩

def version (s : Store β) (c : CellId) : Version β := (s.cell c).version

def value (s : Store β) (c : CellId) : Any β := (s.version c).value

def waiting (s : Store β) (c : CellId) : Waiting := (s.cell c).waiting

def alloc (s : Store β) (v : Any β) : CellId × Store β :=
  (s.nextCell,
    { s with
      cells := s.cells.insert s.nextCell ⟨⟨s.nextCell, s.now, v⟩, ∅⟩
      nextCell := s.nextCell.next
      now := s.now + 1 })

def replace (s : Store β) (c : CellId) (v : Version β) : Store β :=
  { s with cells := s.cells.insert c ⟨v, s.waiting c⟩ }

def overlay (s : Store β) (cells : Std.ExtTreeMap CellId (Cell β)) : Store β :=
  { s with cells := s.cells ∪ cells }

def setWaiting (s : Store β) (c : CellId) (w : Waiting) : Store β :=
  { s with cells := s.cells.insert c ⟨s.version c, w⟩ }

def register (s : Store β) (c : CellId) (f : FiberId) (k : CommitId) : Bool × Store β :=
  (!(s.waiting c).contains f, s.setWaiting c ((s.waiting c).insertIfNew f k))

def unregister (s : Store β) (c : CellId) (f : FiberId) : Bool × Store β :=
  ((s.waiting c).contains f, s.setWaiting c ((s.waiting c).erase f))

def drain (s : Store β) (c : CellId) : Waiting × Store β :=
  (s.waiting c, s.setWaiting c ∅)

variable (s : Store β) (c d : CellId)

theorem cell_alloc (v : Any β) :
    (s.alloc v).2.cell d = if s.nextCell = d then ⟨⟨s.nextCell, s.now, v⟩, ∅⟩ else s.cell d := by
  simp only [cell, alloc, Std.ExtTreeMap.getElem?_insert, Std.LawfulEqOrd.compare_eq_iff_eq]
  split <;> rfl

theorem cell_replace (v : Version β) :
    (s.replace c v).cell d = if c = d then ⟨v, s.waiting c⟩ else s.cell d := by
  simp only [cell, replace, Std.ExtTreeMap.getElem?_insert, Std.LawfulEqOrd.compare_eq_iff_eq]
  split <;> rfl

theorem cell_overlay (cells : Std.ExtTreeMap CellId (Cell β)) :
    (s.overlay cells).cell c = (cells[c]?).getD (s.cell c) := by
  cases h : cells[c]? <;> simp [cell, overlay, Std.ExtTreeMap.getElem?_union, h]

theorem cell_setWaiting (w : Waiting) :
    (s.setWaiting c w).cell d = if c = d then ⟨s.version c, w⟩ else s.cell d := by
  simp only [cell, setWaiting, Std.ExtTreeMap.getElem?_insert, Std.LawfulEqOrd.compare_eq_iff_eq]
  split <;> rfl

@[simp] theorem version_setWaiting (w : Waiting) :
    (s.setWaiting c w).version d = s.version d := by
  simp only [version, cell_setWaiting]
  split <;> simp_all

theorem waiting_setWaiting (w : Waiting) :
    (s.setWaiting c w).waiting d = if c = d then w else s.waiting d := by
  simp only [waiting, cell_setWaiting]
  split <;> rfl

end Store
end TransactionalMemory
