import TransactionalMemory.Journal.Entry

namespace TransactionalMemory

structure Journal (β : Type) [Universe β] where
  entries : Std.ExtTreeMap CellId (Entry β) := ∅

abbrev Checkpoint (β : Type) [Universe β] := Std.ExtTreeMap CellId (Option (Any β))

inductive Analysis
  | invalid | readOnly | readWrite
  deriving DecidableEq

def Analysis.text : Analysis → String
  | invalid => "Invalid"
  | readOnly => "ReadOnly"
  | readWrite => "ReadWrite"

/-- What an operation on a cell does with the value it finds: nothing more, or one last write. -/
inductive Access (β : Type) [Universe β]
  | leave (outcome : Outcome β)
  | write (value answer : Any β)

namespace Journal

variable {β : Type} [Universe β]

def size (j : Journal β) : Nat := j.entries.size

def isEmpty (j : Journal β) : Bool := j.entries.isEmpty

def entry (j : Journal β) (s : Store β) (c : CellId) : Entry β :=
  (j.entries[c]?).getD { expected := s.version c }

def put (j : Journal β) (c : CellId) (e : Entry β) : Journal β := ⟨j.entries.insert c e⟩

def insertNew (j : Journal β) (s : Store β) (c : CellId) : Journal β :=
  j.put c { expected := s.version c, created := true }

/-- Runs `f` on the value found in a cell. The cell has an entry afterwards, however `f` ends. -/
def touch (j : Journal β) (s : Store β) (c : CellId) (f : Any β → Except Panic (Access β)) :
    Outcome β × Journal β :=
  let e := j.entry s c
  match f e.current with
  | .error p => (.halt (.ofPanic p), j.put c e)
  | .ok (.leave o) => (o, j.put c e)
  | .ok (.write v r) =>
    match e.set v with
    | .error d => (.halt d, j.put c e)
    | .ok e' => (.success r, j.put c e')

def checkpoint (j : Journal β) : Checkpoint β := j.entries.map fun _ e => e.pending

/-- Takes back every write made since a checkpoint. Cells touched since keep their entries, which
still count for validation and for waking. -/
def rollback (j : Journal β) (k : Checkpoint β) : Journal β :=
  ⟨j.entries.map fun c e => { e with pending := (k[c]?).join }⟩

def isValid (j : Journal β) (s : Store β) : Bool :=
  j.entries.toList.all fun p => p.2.isValid p.1 s

def isChanged (j : Journal β) : Bool := j.entries.toList.any fun p => p.2.isChanged

def analyze (j : Journal β) (s : Store β) : Analysis :=
  if j.isValid s then if j.isChanged then .readWrite else .readOnly else .invalid

variable (j : Journal β) (s : Store β) (c d : CellId)

theorem getElem?_put (e : Entry β) :
    (j.put c e).entries[d]? = if c = d then some e else j.entries[d]? := by
  simp [put, Std.ExtTreeMap.getElem?_insert]

theorem entry_put (e : Entry β) : (j.put c e).entry s d = if c = d then e else j.entry s d := by
  simp only [entry, getElem?_put]
  split <;> rfl

theorem getElem?_checkpoint : j.checkpoint[c]? = (j.entries[c]?).map Entry.pending := by
  simp [checkpoint]

theorem getElem?_rollback (k : Checkpoint β) :
    (j.rollback k).entries[c]? =
      (j.entries[c]?).map fun e => { e with pending := (k[c]?).join } := by
  simp [rollback]

theorem isValid_iff :
    j.isValid s ↔ ∀ (c : CellId) (e : Entry β), j.entries[c]? = some e → e.isValid c s := by
  simp [isValid]

theorem isChanged_iff :
    j.isChanged ↔ ∃ (c : CellId) (e : Entry β), j.entries[c]? = some e ∧ e.isChanged := by
  simp [isChanged]

end Journal
end TransactionalMemory
