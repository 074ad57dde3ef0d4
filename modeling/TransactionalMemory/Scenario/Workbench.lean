import TransactionalMemory.Journal.Publish
import TransactionalMemory.Journal.Watch
import TransactionalMemory.Scenario.Val

namespace TransactionalMemory.Scenario

/-- A job for the workbench. Cells, journals, checkpoints, versions, fibers and callbacks go by name. -/
inductive Job
  | cell (c : String) (v : Any Base)
  | journal (j : String)
  | entry (j c : String)
  | get (j c : String) (t : Base)
  | set (j c : String) (v : Any Base)
  | insertNew (j c : String)
  | publish (j : String)
  | checkpoint (j k : String)
  | rollback (j k : String)
  | watch (j fiber callback : String)
  | unwatch (j fiber : String)
  | untracked (j other : String)
  | register (c fiber callback : String)
  | unregister (c fiber : String)
  | drain (c : String)
  | remember (c version : String)
  | same (c version : String)
  | restore (c version : String)
  | sameValue (c : String) (v : Any Base)

inductive JobReply
  | null
  | unknown
  | number (n : Nat)
  | flag (b : Bool)
  | names (ns : List String)
  | flags (created changed valid : Bool)
  | got (v : Any Base)
  | done
  | woken (ns : List String)
  | halt (d : Defect)
  | refusal (r : Refusal)

structure Workbench where
  store : Store Base := {}
  cells : Std.ExtTreeMap String CellId := ∅
  journals : Std.ExtTreeMap String (Journal Base) := ∅
  checkpoints : Std.ExtTreeMap String (Checkpoint Base) := ∅
  versions : Std.ExtTreeMap String (Version Base) := ∅
  fibers : Std.ExtTreeMap String FiberId := ∅
  callbacks : Std.ExtTreeMap String CommitId := ∅
  calls : Std.ExtTreeMap CommitId Nat := ∅

structure EntryView where
  cell : String
  created : Bool
  valid : Bool
  pending : Option (Any Base)

structure BenchJournal where
  name : String
  size : Nat
  isEmpty : Bool
  valid : Bool
  analysis : Analysis
  entries : List EntryView

structure BenchReport where
  reply : JobReply
  cells : List (String × Any Base × Nat)
  journals : List BenchJournal
  calls : List (String × Nat)

namespace Workbench

def fiber (w : Workbench) (name : String) : FiberId × Workbench :=
  match w.fibers[name]? with
  | some f => (f, w)
  | none => (⟨w.fibers.size + 1⟩, { w with fibers := w.fibers.insert name ⟨w.fibers.size + 1⟩ })

def callback (w : Workbench) (name : String) : CommitId × Workbench :=
  match w.callbacks[name]? with
  | some k => (k, w)
  | none => (⟨w.callbacks.size + 1⟩,
      { w with callbacks := w.callbacks.insert name ⟨w.callbacks.size + 1⟩ })

def nameOf {k : Kind} (ns : Std.ExtTreeMap String (Serial k)) (i : Serial k) : String :=
  (((ns.toList.find? (·.2 == i)).map (·.1))).getD ""

def call (w : Workbench) (woken : Waiting) : List String × Workbench :=
  let one m (k : CommitId) := Std.ExtTreeMap.alter m k fun n => some (n.getD 0 + 1)
  ((woken.keys.map (nameOf w.fibers)).mergeSort, { w with calls := woken.values.foldl one w.calls })

def withJournal (w : Workbench) (j : String) (f : Journal Base → JobReply × Workbench) :
    JobReply × Workbench :=
  match w.journals[j]? with
  | some x => f x
  | none => (.unknown, w)

def withCell (w : Workbench) (c : String) (f : CellId → JobReply × Workbench) :
    JobReply × Workbench :=
  match w.cells[c]? with
  | some x => f x
  | none => (.unknown, w)

def putJournal (w : Workbench) (j : String) (x : Journal Base) : Workbench :=
  { w with journals := w.journals.insert j x }

def run (w : Workbench) : Job → JobReply × Workbench
  | .cell c v =>
    let (i, s) := w.store.alloc v
    (.number i.number, { w with store := s, cells := w.cells.insert c i })
  | .journal j => (.null, w.putJournal j {})
  | .entry j c =>
    w.withJournal j fun x => w.withCell c fun i =>
      let e := x.entry w.store i
      (.flags e.created e.isChanged (e.isValid i w.store), w.putJournal j (x.put i e))
  | .get j c t =>
    w.withJournal j fun x => w.withCell c fun i =>
      let e := x.entry w.store i
      let w := w.putJournal j (x.put i e)
      match e.get (.base t) with
      | .ok v => (.got ⟨.base t, v⟩, w)
      | .error d => (.halt d, w)
  | .set j c v =>
    w.withJournal j fun x => w.withCell c fun i =>
      let e := x.entry w.store i
      match e.set v with
      | .ok e => (.done, w.putJournal j (x.put i e))
      | .error d => (.halt d, w.putJournal j (x.put i e))
  | .insertNew j c =>
    w.withJournal j fun x => w.withCell c fun i => (.null, w.putJournal j (x.insertNew w.store i))
  | .publish j =>
    w.withJournal j fun x =>
      match x.publish w.store with
      | .error r => (.refusal r, w)
      | .ok (woken, s, x) =>
        let (ns, w) := ({ w with store := s }.putJournal j x).call woken
        (.woken ns, w)
  | .checkpoint j k =>
    w.withJournal j fun x =>
      (.null, { w with checkpoints := w.checkpoints.insert k x.checkpoint })
  | .rollback j k =>
    w.withJournal j fun x =>
      match w.checkpoints[k]? with
      | some c => (.null, w.putJournal j (x.rollback c))
      | none => (.unknown, w)
  | .watch j fiber callback =>
    let (f, w) := w.fiber fiber
    let (k, w) := w.callback callback
    w.withJournal j fun x =>
      let (n, s) := x.watch w.store f k
      (.number n, { w with store := s })
  | .unwatch j fiber =>
    let (f, w) := w.fiber fiber
    w.withJournal j fun x => (.null, { w with store := x.unwatch w.store f })
  | .untracked j other =>
    w.withJournal j fun x => w.withJournal other fun y =>
      (.names ((x.untracked y).keys.map (nameOf w.cells)).mergeSort, w)
  | .register c fiber callback =>
    let (f, w) := w.fiber fiber
    let (k, w) := w.callback callback
    w.withCell c fun i =>
      let (b, s) := w.store.register i f k
      (.flag b, { w with store := s })
  | .unregister c fiber =>
    let (f, w) := w.fiber fiber
    w.withCell c fun i =>
      let (b, s) := w.store.unregister i f
      (.flag b, { w with store := s })
  | .drain c =>
    w.withCell c fun i =>
      let (woken, s) := w.store.drain i
      let (ns, w) := { w with store := s }.call woken
      (.names ns, w)
  | .remember c version =>
    w.withCell c fun i =>
      (.null, { w with versions := w.versions.insert version (w.store.version i) })
  | .same c version =>
    w.withCell c fun i =>
      match w.versions[version]? with
      | some v => (.flag ((w.store.version i).same v), w)
      | none => (.unknown, w)
  | .restore c version =>
    w.withCell c fun i =>
      match w.versions[version]? with
      | some v => (.null, { w with store := w.store.replace i v })
      | none => (.unknown, w)
  | .sameValue c v => w.withCell c fun i => (.flag ((w.store.value i).same v), w)

def journalView (w : Workbench) (name : String) (j : Journal Base) : BenchJournal where
  name
  size := j.size
  isEmpty := j.isEmpty
  valid := j.isValid w.store
  analysis := j.analyze w.store
  entries := j.entries.toList.map fun (c, e) =>
    ⟨nameOf w.cells c, e.created, e.isValid c w.store, e.pending⟩

def report (w : Workbench) (reply : JobReply) : BenchReport where
  reply
  cells := w.cells.toList.map fun (n, c) => (n, w.store.value c, (w.store.waiting c).size)
  journals := w.journals.toList.map fun (n, j) => w.journalView n j
  calls := w.callbacks.toList.map fun (n, k) => (n, (w.calls[k]?).getD 0)

def runAll : List Job → Workbench → List BenchReport
  | [], _ => []
  | job :: jobs, w =>
    let (r, w) := w.run job
    w.report r :: runAll jobs w

end Workbench
end TransactionalMemory.Scenario
