import TransactionalMemory.Ty

namespace TransactionalMemory

inductive Panic
  | text (message : String)
  | other
  deriving DecidableEq, Repr

def Panic.message : Panic → String
  | text m => m
  | other => "non-string panic payload"

inductive Defect
  | panic (message : String)
  | typeMismatch (expected : String)
  | message (text : String)
  deriving DecidableEq, Repr

namespace Defect

def ofPanic (p : Panic) : Defect := panic p.message

def text : Defect → String
  | panic m => "transaction panicked: " ++ m
  | typeMismatch t => "value has been casted as the wrong type, expected `" ++ t ++ "`"
  | message m => m

end Defect

inductive Cause (ε : Type)
  | failure (error : ε)
  | halt (defect : Defect)
  | interrupt (fiber : FiberId)
  deriving DecidableEq

namespace Cause

variable {ε ε' : Type}

def failure? : Cause ε → Option ε
  | failure e => some e
  | _ => none

def defect? : Cause ε → Option Defect
  | halt d => some d
  | _ => none

def isInterrupt : Cause ε → Bool
  | interrupt _ => true
  | _ => false

def mapM (f : ε → Except Panic ε') : Cause ε → Except Panic (Cause ε')
  | failure e => failure <$> f e
  | halt d => pure (halt d)
  | interrupt x => pure (interrupt x)

def same (eq : ε → ε → Bool) : Cause ε → Cause ε → Bool
  | failure a, failure b => eq a b
  | halt a, halt b => a == b
  | interrupt a, interrupt b => a == b
  | _, _ => false

def text (errorText : ε → String) : Cause ε → String
  | failure e => "transaction failed: " ++ errorText e
  | halt d => "transaction halted: " ++ d.text
  | interrupt f => "transaction of fiber " ++ fiberText f ++ " was interrupted"

end Cause

inductive Exit (ε α : Type)
  | success (value : α)
  | failure (error : ε)
  | halt (defect : Defect)
  | interrupt (fiber : FiberId)
  | retry
  deriving DecidableEq

namespace Exit

variable {ε α α' : Type}

def isSuccess : Exit ε α → Bool
  | success _ => true
  | _ => false

def isRetry : Exit ε α → Bool
  | retry => true
  | _ => false

def mapM (f : α → Except Panic α') : Exit ε α → Except Panic (Exit ε α')
  | success a => success <$> f a
  | failure e => pure (failure e)
  | halt d => pure (halt d)
  | interrupt x => pure (interrupt x)
  | retry => pure retry

def same (eqError : ε → ε → Bool) (eq : α → α → Bool) : Exit ε α → Exit ε α → Bool
  | success a, success b => eq a b
  | failure a, failure b => eqError a b
  | halt a, halt b => a == b
  | interrupt a, interrupt b => a == b
  | retry, retry => true
  | _, _ => false

/-- What a committer is told. A retry tells it nothing. -/
def result? : Exit ε α → Option (Except (Cause ε) α)
  | success a => some (.ok a)
  | failure e => some (.error (.failure e))
  | halt d => some (.error (.halt d))
  | interrupt f => some (.error (.interrupt f))
  | retry => none

end Exit

inductive Refusal
  | invalidJournal
  | wouldSuspend
  deriving DecidableEq

def Refusal.message : Refusal → String
  | invalidJournal => "journal is invalid and cannot be committed"
  | wouldSuspend => "transaction retried and would have to suspend"

/-- How a run ends while the types of its values are only known at run time. -/
abbrev Outcome (β : Type) [Universe β] := Exit (Any β) (Any β)

abbrev Result (β : Type) [Universe β] := Except (Cause (Any β)) (Any β)

variable {β : Type} [Universe β]

def mismatch (t : Ty β) : Outcome β := .halt (.typeMismatch t.name)

/-- An outcome as one of a transaction that fails with `e` and succeeds with `a`. -/
def Exit.conform (e a : Ty β) : Outcome β → Outcome β
  | .success v => if v.ty = a then .success v else mismatch a
  | .failure v => if v.ty = e then .failure v else mismatch e
  | o => o

end TransactionalMemory
