import Lapse.Fault

namespace Lapse

/-- A value and the last instant at which it is still fresh, in nanoseconds. -/
structure Lease where
  value : Value
  deadline : Int
  deriving Inhabited

namespace Lease

def expired (l : Lease) (now : Int) : Bool := l.deadline < now

def renewed (l : Lease) (now ttl : Int) : Lease := { l with deadline := now + ttl }

def equal (a b : Lease) : Bool := a.value.equal b.value && a.deadline == b.deadline

def write (l : Lease) : String :=
  "CacheEntry(value=" ++ l.value.write ++ ", expires_at_ns=" ++ toString l.deadline ++ ")"

def fields : List String := ["value", "expires_at_ns"]

def assign (field : String) : Fault := if fields.contains field then .readOnly field else .noField

@[simp] theorem value_renewed (l : Lease) (now ttl : Int) :
    (l.renewed now ttl).value = l.value := rfl

@[simp] theorem deadline_renewed (l : Lease) (now ttl : Int) :
    (l.renewed now ttl).deadline = now + ttl := rfl

end Lease

end Lapse
