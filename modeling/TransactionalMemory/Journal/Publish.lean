import TransactionalMemory.Journal.Basic

namespace TransactionalMemory.Journal

variable {β : Type} [Universe β]

/-- The cells a publication of `j` writes, as they are right after it: a fresh version and nobody
waiting. -/
def written (j : Journal β) (s : Store β) : Std.ExtTreeMap CellId (Cell β) :=
  j.entries.filterMap fun c e => e.pending.map fun v => ⟨⟨c, s.now, v⟩, ∅⟩

def waitingFor (s : Store β) (cells : Std.ExtTreeMap CellId (Cell β)) : Waiting :=
  cells.foldl (fun w c _ => w ∪ s.waiting c) ∅

def settled (j : Journal β) : Journal β :=
  ⟨j.entries.map fun _ e => { e with pending := none }⟩

/-- Publishes every pending write and hands over everyone who waited for a written cell. A journal
with a stale entry is refused and nothing happens. -/
def publish (j : Journal β) (s : Store β) : Except Refusal (Waiting × Store β × Journal β) :=
  if j.isValid s then
    let cells := j.written s
    .ok (waitingFor s cells, { s.overlay cells with now := s.now + 1 }, j.settled)
  else .error .invalidJournal

variable (j : Journal β) (s : Store β) (c : CellId)

theorem getElem?_written :
    (j.written s)[c]? =
      (j.entries[c]?).bind fun e => e.pending.map fun v => ⟨⟨c, s.now, v⟩, ∅⟩ := by
  simp only [written, Std.ExtTreeMap.getElem?_filterMap, Std.ExtTreeMap.getKey_eq]
  cases j.entries[c]? <;> rfl

theorem mem_foldl_union (f : FiberId) (l : List (CellId × Cell β)) (w : Waiting) :
    f ∈ l.foldl (fun w p => w ∪ s.waiting p.1) w ↔ f ∈ w ∨ ∃ p ∈ l, f ∈ s.waiting p.1 := by
  induction l generalizing w with
  | nil => simp
  | cons p l ih => simp [ih, or_assoc]

theorem mem_waitingFor (cells : Std.ExtTreeMap CellId (Cell β)) (f : FiberId) :
    f ∈ waitingFor s cells ↔ ∃ c ∈ cells, f ∈ s.waiting c := by
  simp only [waitingFor, Std.ExtTreeMap.foldl_eq_foldl_toList, mem_foldl_union]
  constructor
  · rintro (h | ⟨⟨c, d⟩, h, hf⟩)
    · simp at h
    · rw [Std.ExtTreeMap.mem_toList_iff_getElem?_eq_some] at h
      exact ⟨c, by simp only [Std.ExtTreeMap.mem_iff_isSome_getElem?, h, Option.isSome_some], hf⟩
  · rintro ⟨c, h, hf⟩
    exact .inr ⟨(c, cells[c]), by simp [Std.ExtTreeMap.mem_toList_iff_getElem?_eq_some], hf⟩

theorem getElem?_settled :
    j.settled.entries[c]? = (j.entries[c]?).map fun e => { e with pending := none } := by
  simp [settled]

theorem publish_eq_error_iff {r : Refusal} :
    j.publish s = .error r ↔ j.isValid s = false ∧ r = .invalidJournal := by
  cases h : j.isValid s <;> simp [publish, h, eq_comm]

end TransactionalMemory.Journal
