import Lapse.Log
import Lapse.Store

namespace Lapse

abbrev Tid := Nat

inductive Op
  | fetch (key ttl : Value)
  | erase (key : Value)
  | clear
  | sweep
  | size
  | listing
  | interval
  | setInterval (ns : Value)
  deriving Inhabited

inductive Answer
  | unit
  | value (v : Value)
  | count (n : Nat)
  | nanos (i : Int)
  | listing (entries : List (Key × Value))
  deriving Inhabited

def Answer.toValue : Answer → Value
  | unit => .null
  | value v => v
  | count n => .int n
  | nanos i => .int i
  | listing entries => .list (entries.map fun (k, v) => .list [k.toValue, v])

abbrev Outcome := Except Fault Answer

abbrev Reply := Except Fault Value

inductive Ask
  | supply (key : Key)
  | check (v : Value)
  | dispose (v : Value)
  deriving Inhabited

inductive Happening
  | called (op : Op)
  | returned (o : Outcome)
  | asked (a : Ask)
  | replied (r : Reply)
  | passed (now : Int)
  | examined (key : Key) (record : Option Record)
  | judged (key : Key) (record : Record) (now : Int)
  | renewed (key : Key) (record : Record)
  | inserted (key : Key) (record : Record)
  | overwritten (key : Key) (record : Record)
  | deleted (key : Key) (record : Record)
  /-- The call joins a creation of its key, its own or another's. -/
  | joined (key : Key) (creation : Nat)
  | retried (key : Key) (creation : Nat)
  | withdrawn (key : Key) (creation : Nat)
  | logged (l : Log)

structure Event where
  thread : Tid
  call : Nat
  what : Happening

end Lapse
