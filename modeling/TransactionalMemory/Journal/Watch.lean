import TransactionalMemory.Journal.Basic

namespace TransactionalMemory.Journal

variable {β : Type} [Universe β]

def awaited (j : Journal β) : Std.ExtTreeMap CellId (Entry β) :=
  j.entries.filter fun _ e => !e.created

/-- Registers a fiber with every awaited cell it is not yet registered with, and counts those. -/
def watch (j : Journal β) (s : Store β) (f : FiberId) (k : CommitId) : Nat × Store β :=
  ((j.awaited.filter fun c _ => !(s.waiting c).contains f).size,
    s.overlay (j.awaited.map fun c _ => ⟨s.version c, (s.waiting c).insertIfNew f k⟩))

def leave (s : Store β) (f : FiberId) (cells : Std.ExtTreeMap CellId (Entry β)) : Store β :=
  s.overlay (cells.map fun c _ => ⟨s.version c, (s.waiting c).erase f⟩)

def unwatch (j : Journal β) (s : Store β) (f : FiberId) : Store β := leave s f j.entries

def untracked (j other : Journal β) : Std.ExtTreeMap CellId (Entry β) :=
  j.awaited.filter fun c _ => !other.entries.contains c

variable (j : Journal β) (s : Store β) (c : CellId)

theorem getElem?_awaited : j.awaited[c]? = (j.entries[c]?).filter fun e => !e.created := by
  cases h : j.entries[c]? <;> simp [awaited, Std.ExtTreeMap.getElem?_filter, h, Option.filter]

theorem mem_awaited : c ∈ j.awaited ↔ ∃ e, j.entries[c]? = some e ∧ e.created = false := by
  rw [← Std.ExtTreeMap.isSome_getElem?_iff_mem, getElem?_awaited, Option.isSome_iff_exists]
  simp [Option.filter_eq_some_iff]

theorem cell_watch (f : FiberId) (k : CommitId) :
    (j.watch s f k).2.cell c =
      if c ∈ j.awaited then ⟨s.version c, (s.waiting c).insertIfNew f k⟩ else s.cell c := by
  simp only [watch, Store.cell_overlay, Std.ExtTreeMap.getElem?_map]
  by_cases h : c ∈ j.awaited <;> simp [h]

theorem cell_leave (f : FiberId) (cells : Std.ExtTreeMap CellId (Entry β)) :
    (leave s f cells).cell c =
      if c ∈ cells then ⟨s.version c, (s.waiting c).erase f⟩ else s.cell c := by
  simp only [leave, Store.cell_overlay, Std.ExtTreeMap.getElem?_map]
  by_cases h : c ∈ cells <;> simp [h]

end TransactionalMemory.Journal
