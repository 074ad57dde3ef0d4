import TransactionalMemory.Exit
import TransactionalMemory.Scenario.Val

namespace TransactionalMemory.Scenario

inductive Arith
  | add | sub | mul | div | rem
  deriving DecidableEq

inductive Op
  | eq | not | pair | fst | snd | nth | sum | len | concat | repeats | str | parse
  | some | none | ok | err | isSome | unwrap | panic
  deriving DecidableEq

inductive Expr
  | lit (v : Val)
  | var (x : String)
  | bound (x : String)
  | list (es : List Expr)
  | arith (op : Arith) (a b : Expr)
  | neg (a : Expr)
  | lt (a b : Expr)
  | le (a b : Expr)
  | and (a b : Expr)
  | or (a b : Expr)
  | cond (c a b : Expr)
  | push (a b : Expr)
  | call (op : Op) (es : List Expr)
  | panicStatic
  | panicOther

abbrev Eval := Except Panic

namespace Eval

variable {α : Type}

def panic (m : String) : Eval α := .error (.text m)

def typeError (op : String) : Eval α := panic ("type error: " ++ op)

end Eval

namespace Val

def asInt (op : String) : Val → Eval Int
  | int n => pure n
  | _ => Eval.typeError op

def asBool (op : String) : Val → Eval Bool
  | bool b => pure b
  | _ => Eval.typeError op

def asText (op : String) : Val → Eval String
  | text s => pure s
  | _ => Eval.typeError op

def asPair (op : String) : Val → Eval (Val × Val)
  | pair a b => pure (a, b)
  | _ => Eval.typeError op

def asOption (op : String) : Val → Eval (Option Val)
  | some v => pure (.some v)
  | none => pure .none
  | _ => Eval.typeError op

def asResult (op : String) : Val → Eval (Except Val Val)
  | ok v => pure (.ok v)
  | err e => pure (.error e)
  | _ => Eval.typeError op

def asList (op : String) : Val → Eval (List Val)
  | list vs => pure vs
  | _ => Eval.typeError op

def asRef : Val → Eval CellId
  | ref c => pure c
  | _ => Eval.typeError "ref"

def asSemaphore : Val → Eval CellId
  | semaphore c => pure c
  | _ => Eval.typeError "sem"

def asPromise : Val → Eval CellId
  | promise c => pure c
  | _ => Eval.typeError "fut"

def asSize : Val → Eval Nat
  | int n => if 0 ≤ n ∧ n.toNat < UInt64.size then pure n.toNat else Eval.typeError "usize"
  | _ => Eval.typeError "usize"

end Val

namespace Arith

def name : Arith → String
  | add => "add"
  | sub => "sub"
  | mul => "mul"
  | div => "div"
  | rem => "rem"

def verb : Arith → String
  | add => "add"
  | sub => "subtract"
  | mul => "multiply"
  | div => "divide"
  | rem => "calculate the remainder"

def fit (verb : String) (n : Int) : Eval Int :=
  if Int64.minValue.toInt ≤ n ∧ n ≤ Int64.maxValue.toInt then pure n
  else Eval.panic ("attempt to " ++ verb ++ " with overflow")

/-- Division truncates toward zero. -/
def apply (op : Arith) (a b : Int) : Eval Int :=
  match op with
  | add => fit op.verb (a + b)
  | sub => fit op.verb (a - b)
  | mul => fit op.verb (a * b)
  | div => if b = 0 then Eval.panic "attempt to divide by zero" else fit op.verb (a.tdiv b)
  | rem =>
    if b = 0 then Eval.panic "attempt to calculate the remainder with a divisor of zero"
    else fit op.verb (a.tmod b)

end Arith

/-- Reads an integer of 64 bits: a sign at most, then ASCII digits. -/
def parseInt (s : String) : Option Int :=
  let (sign, ds) := match s.toList with
    | '-' :: r => ((-1 : Int), r)
    | '+' :: r => (1, r)
    | r => (1, r)
  if ds.isEmpty || !ds.all Char.isDigit then none
  else
    let n := sign * ds.foldl (fun n c => n * 10 + (c.toNat - '0'.toNat)) 0
    if Int64.minValue.toInt ≤ n ∧ n ≤ Int64.maxValue.toInt then some n else none

namespace Op

def name : Op → String
  | eq => "eq"
  | not => "not"
  | pair => "pair"
  | fst => "fst"
  | snd => "snd"
  | nth => "nth"
  | sum => "sum"
  | len => "len"
  | concat => "concat"
  | repeats => "repeat"
  | str => "str"
  | parse => "parse"
  | some => "some"
  | none => "none"
  | ok => "ok"
  | err => "err"
  | isSome => "is_some"
  | unwrap => "unwrap"
  | panic => "panic"

def apply (op : Op) (vs : List Val) : Eval Val :=
  match op, vs with
  | eq, [a, b] => pure (.bool (a.same b))
  | not, [a] => return .bool (!(← a.asBool op.name))
  | pair, [a, b] => pure (.pair a b)
  | fst, [a] => return (← a.asPair op.name).1
  | snd, [a] => return (← a.asPair op.name).2
  | nth, [a, b] => do
    let l ← a.asList op.name
    let i ← b.asInt op.name
    if i < 0 then Eval.panic "index out of bounds"
    else
      match l[i.toNat]? with
      | Option.some v => pure v
      | Option.none => Eval.panic "index out of bounds"
  | sum, [a] => do
    let l ← a.asList op.name
    return .int (← l.foldlM (fun n v => do Arith.add.apply n (← v.asInt op.name)) 0)
  | len, [.list l] => pure (.int l.length)
  | len, [.text s] => pure (.int s.length)
  | concat, [.list a, .list b] => pure (.list (a ++ b))
  | concat, [.text a, .text b] => pure (.text (a ++ b))
  | repeats, [a, b] => do
    let s ← a.asText op.name
    let n ← b.asInt op.name
    if 0 ≤ n ∧ n ≤ 100000 then pure (.text (String.join (List.replicate n.toNat s)))
    else Eval.typeError op.name
  | str, [a] => pure (.text a.json)
  | parse, [a] => return Val.ofOption ((parseInt (← a.asText op.name)).map .int)
  | some, [a] => pure (.some a)
  | none, [] => pure .none
  | ok, [a] => pure (.ok a)
  | err, [a] => pure (.err a)
  | isSome, [a] => return .bool (← a.asOption op.name).isSome
  | unwrap, [a] => do
    match ← a.asOption op.name with
    | Option.some v => pure v
    | Option.none => Eval.panic "unwrap on none"
  | panic, [a] => do Eval.panic (← a.asText op.name)
  | _, _ => Eval.typeError op.name

end Op

namespace Expr

abbrev Vars := List (String × Val)

mutual

def eval (names : String → Option Val) (ρ : Vars) : Expr → Eval Val
  | lit v => pure v
  | var x =>
    match ρ.lookup x with
    | some v => pure v
    | none => Eval.panic ("unbound variable: " ++ x)
  | bound x =>
    match names x with
    | some v => pure v
    | none => Eval.panic ("unbound name: " ++ x)
  | list es => return .list (← evalList names ρ es)
  | arith op a b => do
    let a ← (← eval names ρ a).asInt op.name
    let b ← (← eval names ρ b).asInt op.name
    return .int (← op.apply a b)
  | neg a => do
    let a ← (← eval names ρ a).asInt "neg"
    return .int (← Arith.fit "negate" (-a))
  | lt a b => do
    let a ← (← eval names ρ a).asInt "lt"
    let b ← (← eval names ρ b).asInt "lt"
    return .bool (a < b)
  | le a b => do
    let a ← (← eval names ρ a).asInt "le"
    let b ← (← eval names ρ b).asInt "le"
    return .bool (a ≤ b)
  | and a b => do
    if ← (← eval names ρ a).asBool "and" then return .bool (← (← eval names ρ b).asBool "and")
    else return .bool false
  | or a b => do
    if ← (← eval names ρ a).asBool "or" then return .bool true
    else return .bool (← (← eval names ρ b).asBool "or")
  | cond c a b => do
    if ← (← eval names ρ c).asBool "if" then eval names ρ a else eval names ρ b
  | push a b => do
    let l ← (← eval names ρ a).asList "push"
    return .list (l ++ [← eval names ρ b])
  | call op es => do op.apply (← evalList names ρ es)
  | panicStatic => Eval.panic "static panic"
  | panicOther => .error .other

def evalList (names : String → Option Val) (ρ : Vars) : List Expr → Eval (List Val)
  | [] => pure []
  | e :: es => return (← eval names ρ e) :: (← evalList names ρ es)

end

end Expr
end TransactionalMemory.Scenario
