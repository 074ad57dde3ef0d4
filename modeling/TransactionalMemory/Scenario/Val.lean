import TransactionalMemory.Ty

namespace TransactionalMemory.Scenario

inductive Val
  | unit
  | bool (b : Bool)
  | int (n : Int)
  | text (s : String)
  | list (vs : List Val)
  | pair (a b : Val)
  | none
  | some (v : Val)
  | ok (v : Val)
  | err (v : Val)
  | left (v : Val)
  | right (v : Val)
  /-- Equal to nothing, not even to itself. -/
  | nan
  /-- A text whose letters are compared regardless of ASCII case. -/
  | caseless (s : String)
  | fiber (f : FiberId)
  | ref (c : CellId)
  | semaphore (c : CellId)
  | promise (c : CellId)

namespace Val

mutual

def same : Val → Val → Bool
  | unit, unit | none, none => true
  | bool a, bool b => a == b
  | int a, int b => a == b
  | text a, text b => a == b
  | list a, list b => sameList a b
  | pair a b, pair c d => same a c && same b d
  | some a, some b | ok a, ok b | err a, err b | left a, left b | right a, right b => same a b
  | caseless a, caseless b => a.map Char.toLower == b.map Char.toLower
  | fiber a, fiber b => a == b
  | ref a, ref b | semaphore a, semaphore b | promise a, promise b => a == b
  | _, _ => false

def sameList : List Val → List Val → Bool
  | [], [] => true
  | a :: as, b :: bs => same a b && sameList as bs
  | _, _ => false

end

def escape (c : Char) : String :=
  match c with
  | '"' => "\\\""
  | '\\' => "\\\\"
  | '\x08' => "\\b"
  | '\x0c' => "\\f"
  | '\n' => "\\n"
  | '\r' => "\\r"
  | '\t' => "\\t"
  | c =>
    if c.toNat < 0x20 then
      "\\u00" ++ String.ofList [Nat.digitChar (c.toNat / 16), Nat.digitChar (c.toNat % 16)]
    else c.toString

def quote (s : String) : String := "\"" ++ String.join (s.toList.map escape) ++ "\""

def tagged (tag body : String) : String := "\x7b" ++ quote tag ++ ":" ++ body ++ "\x7d"

mutual

def json : Val → String
  | unit => "null"
  | bool b => if b then "true" else "false"
  | int n => toString n
  | text s => quote s
  | list vs => "[" ++ ",".intercalate (jsonList vs) ++ "]"
  | pair a b => tagged "pair" ("[" ++ json a ++ "," ++ json b ++ "]")
  | none => tagged "none" "null"
  | some v => tagged "some" (json v)
  | ok v => tagged "ok" (json v)
  | err v => tagged "err" (json v)
  | left v => tagged "left" (json v)
  | right v => tagged "right" (json v)
  | nan => tagged "nan" "null"
  | caseless s => tagged "ci" (quote s)
  | fiber f => tagged "fiber" (toString f.number)
  | ref c => tagged "cell" (toString c.number)
  | semaphore c => tagged "sem" (toString c.number)
  | promise c => tagged "fut" (toString c.number)

def jsonList : List Val → List String
  | [] => []
  | v :: vs => json v :: jsonList vs

end

def display : Val → String
  | text s => s
  | v => v.json

def ofOption : Option Val → Val
  | Option.none => none
  | Option.some v => some v

def ofExcept : Except Val Val → Val
  | .ok v => ok v
  | .error e => err e

end Val

/-- The types of scenarios: the values above, and three bare types for what claims to be one. -/
inductive Base
  | val | int | text | bool
  deriving DecidableEq

instance : Universe Base where
  El
    | .val => Val
    | .int => Int
    | .text => String
    | .bool => Bool
  same
    | .val, a, b => Val.same a b
    | .int, a, b => (show Int from a) == b
    | .text, a, b => (show String from a) == b
    | .bool, a, b => (show Bool from a) == b
  name
    | .val => "Val"
    | .int => "i64"
    | .text => "String"
    | .bool => "bool"
  decEq := inferInstance

abbrev V : Ty Base := .base .val

end TransactionalMemory.Scenario
