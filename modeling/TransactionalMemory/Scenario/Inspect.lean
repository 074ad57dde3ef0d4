import TransactionalMemory.Scenario.Expr

namespace TransactionalMemory.Scenario

def applyTo (e : Expr) (v : Val) : Eval Val := e.eval (fun _ => none) [("x", v)]

structure CauseReport where
  text : String
  failure : Option Val
  defect : Option Defect
  isInterrupt : Bool
  mapped : Except Panic (Cause Val × String × Bool)

def CauseReport.of (c : Cause Val) (f : Expr) : CauseReport where
  text := c.text Val.display
  failure := c.failure?
  defect := c.defect?
  isInterrupt := c.isInterrupt
  mapped := (c.mapM (applyTo f)).map fun m => (m, m.text Val.display, m.same Val.same c)

structure ExitReport where
  isSuccess : Bool
  isRetry : Bool
  mapped : Except Panic (Exit Val Val × Bool)
  result : Option (Except (Cause Val) Val)

def ExitReport.of (x : Exit Val Val) (f : Expr) : ExitReport where
  isSuccess := x.isSuccess
  isRetry := x.isRetry
  mapped := (x.mapM (applyTo f)).map fun m => (m, m.same Val.same Val.same x)
  result := x.result?

def defectBy (e : Expr) : Except Val Defect :=
  match e.eval (fun _ => none) [] with
  | .ok v => .error v
  | .error p => .ok (.ofPanic p)

def isBoom (d : Defect) : Bool := d == .message "boom"

end TransactionalMemory.Scenario
