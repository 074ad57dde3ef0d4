import Std.Data.ExtTreeMap
import TransactionalMemory.Clock

namespace TransactionalMemory.Scenario

inductive ClockStep
  | new (name : String) (start : UInt64)
  | clone (name source : String)
  | next (name : String)
  | current (name : String)

inductive ClockReply
  | null
  | unknown
  | reading (n : UInt64)
  | fault (f : Clock.Fault)

structure Clocks where
  names : Std.ExtTreeMap String Nat := ∅
  clocks : Std.ExtTreeMap Nat Clock := ∅

namespace Clocks

def at? (s : Clocks) (name : String) : Option (Nat × Clock) := do
  let i ← s.names[name]?
  return (i, ← s.clocks[i]?)

def run (s : Clocks) : ClockStep → ClockReply × Clocks
  | .new name start =>
    let i := s.clocks.size
    (.null, ⟨s.names.insert name i, s.clocks.insert i ⟨start⟩⟩)
  | .clone name source =>
    match s.names[source]? with
    | some i => (.null, { s with names := s.names.insert name i })
    | none => (.unknown, s)
  | .next name =>
    match s.at? name with
    | some (i, c) =>
      let (r, c) := c.next
      let s := { s with clocks := s.clocks.insert i c }
      match r with
      | .ok n => (.reading n, s)
      | .error f => (.fault f, s)
    | none => (.unknown, s)
  | .current name =>
    match s.at? name with
    | some (_, c) => (.reading c.current, s)
    | none => (.unknown, s)

def readings (s : Clocks) : List (String × UInt64) :=
  s.names.toList.map fun (n, i) => (n, ((s.clocks[i]?).map (·.current)).getD 0)

def runAll : List ClockStep → Clocks → List (ClockReply × List (String × UInt64))
  | [], _ => []
  | step :: steps, s =>
    let (r, s) := s.run step
    (r, s.readings) :: runAll steps s

end Clocks
end TransactionalMemory.Scenario
