import TransactionalMemory.Journal.Basic

namespace TransactionalMemory

inductive Level
  | debug | info | error
  deriving DecidableEq

def Level.text : Level → String
  | debug => "DEBUG"
  | info => "INFO"
  | error => "ERROR"

inductive Notice
  | attemptStarted (f : FiberId)
  | retriedOnStaleReads (f : FiberId)
  | validationFailed (f : FiberId)
  | published (f : FiberId) (a : Analysis) (cells : Nat)
  | publicationFailed (f : FiberId) (r : Refusal)
  | waking (f : FiberId) (n : Nat)
  | suspended (f : FiberId) (cells added : Nat)
  | wokenUp (f : FiberId)
  | interruptRequested (f : FiberId)
  | interrupted (f : FiberId)
  | releaseFailed (permits : Nat) (why : String)
  deriving DecidableEq

namespace Notice

def level : Notice → Level
  | attemptStarted _ | retriedOnStaleReads _ | waking .. | wokenUp _ => .debug
  | validationFailed _ | published .. | suspended .. | interruptRequested _ | interrupted _ => .info
  | publicationFailed .. | releaseFailed .. => .error

def about (f : FiberId) (what : String) : String := "TX(" ++ fiberText f ++ "): " ++ what

def message : Notice → String
  | attemptStarted f => about f "START ATTEMPT"
  | retriedOnStaleReads f => about f "RETRIED ON STALE READS. RUNNING AGAIN"
  | validationFailed f => about f "VALIDATING JOURNAL FAILED. RUNNING AGAIN"
  | published f a n => about f ("COMMITTED " ++ a.text ++ " JOURNAL OF " ++ toString n ++ " CELL(S)")
  | publicationFailed f r => about f ("COMMITTING JOURNAL FAILED: " ++ r.message)
  | waking f n => about f ("WAKING " ++ toString n ++ " SUSPENDED TRANSACTION(S)")
  | suspended f n m =>
    about f ("SUSPENDED ON " ++ toString n ++ " CELL(S), " ++ toString m ++ " NEW REGISTRATION(S)")
  | wokenUp f => about f "WOKEN UP"
  | interruptRequested f => about f "INTERRUPT REQUESTED"
  | interrupted f => about f "INTERRUPTED"
  | releaseFailed n why => "releasing " ++ toString n ++ " permit(s) failed: " ++ why

def line (n : Notice) : String := n.level.text ++ " " ++ n.message

end Notice
end TransactionalMemory
