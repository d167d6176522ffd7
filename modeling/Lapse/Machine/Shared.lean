import Lapse.Machine.Event

namespace Lapse

/-- One making of an absent key; it is owned once its supplier is called. -/
structure Creation where
  key : Key
  id : Nat
  owner : Option Tid
  deriving Inhabited

structure Policy where
  checks : Bool
  disposes : Bool

structure Shared where
  policy : Policy
  clock : Int
  interval : Int
  due : Int
  /-- The thread that is moving `due`. -/
  gate : Option Tid
  store : Store
  pending : List Creation
  held : List (Nat × Tid)
  /-- The next unused number for a call, a creation or a record. -/
  fresh : Nat

namespace Shared

def start (policy : Policy) (clock interval : Int) : Shared where
  policy := policy
  clock := clock
  interval := interval
  due := clock + interval
  gate := none
  store := .empty
  pending := []
  held := []
  fresh := 0

def pending? (s : Shared) (k : Key) : Option Creation := s.pending.find? (·.key.same k)

def isPending (s : Shared) (k : Key) (c : Nat) : Bool := (s.pending? k).any (·.id == c)

def isHeld (s : Shared) (c : Nat) : Bool := s.held.any (·.1 == c)

def hold (s : Shared) (c : Nat) (t : Tid) : Shared := { s with held := (c, t) :: s.held }

def letGo (s : Shared) (c : Nat) : Shared := { s with held := s.held.filter (·.1 != c) }

def own (s : Shared) (c : Nat) (t : Tid) : Shared :=
  { s with pending := s.pending.map fun p => if p.id == c then { p with owner := some t } else p }

def withdraw (s : Shared) (c : Nat) : Shared :=
  { s with pending := s.pending.filter (·.id != c) }

def create (s : Shared) (k : Key) : Shared :=
  { s with pending := s.pending ++ [⟨k, s.fresh, none⟩], fresh := s.fresh + 1 }

def record (s : Shared) (l : Lease) : Record := { l with stamp := s.fresh }

def put (s : Shared) (k : Key) (l : Lease) : Shared :=
  { s with store := s.store.put k (s.record l), fresh := s.fresh + 1 }

def erase (s : Shared) (k : Key) : Shared := { s with store := s.store.erase k }

def isStored (s : Shared) (k : Key) (r : Record) : Bool :=
  (s.store.find? k).any (·.stamp == r.stamp)

end Shared

inductive Course (α : Type)
  | go (a : α)
  /-- First a gated sweep, then there. -/
  | gated (a : α)
  | finish (o : Outcome)

structure Turn (α : Type) where
  shared : Shared
  happened : List Happening
  course : Course α

def Course.map {α β : Type} (f : α → β) : Course α → Course β
  | go a => go (f a)
  | gated a => gated (f a)
  | finish o => finish o

def Turn.map {α β : Type} (f : α → β) (t : Turn α) : Turn β :=
  ⟨t.shared, t.happened, t.course.map f⟩

end Lapse
