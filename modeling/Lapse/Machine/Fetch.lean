import Lapse.Machine.Shared

/-!
Fetching: the value under a key, made by the caller's supplier when it is absent. A creation is
registered per key; its lock keeps other threads that want the key waiting, and they look again
when it is over. A thread that wants a key which it is already making is refused.
-/

namespace Lapse

inductive Fetch
  | coerce (key ttl : Value)
  | lookup (key : Value) (ttl : Int)
  | register (k : Key) (ttl : Int)
  | acquire (k : Key) (ttl : Int) (c : Nat)
  | claim (k : Key) (ttl : Int) (c : Nat)
  | supply (k : Key) (ttl : Int) (c : Nat)
  | insert (k : Key) (c : Nat) (l : Lease)
  | withdraw (k : Key) (c : Nat) (o : Outcome)
  | release (c : Nat) (o : Outcome)
  | again (k : Key) (ttl : Int) (c : Nat)

namespace Fetch

def renew (s : Shared) (k : Key) (r : Record) (ttl : Int) : Turn Fetch :=
  let l := r.toLease.renewed s.clock ttl
  ⟨s.put k l, [.renewed k (s.record l)], .finish (.ok (.value l.value))⟩

def step (s : Shared) (t : Tid) (call : Nat) : Fetch → Option (Turn Fetch)
  | coerce key ttl =>
    match ttl.toInteger with
    | .error f => some ⟨s, [], .finish (.error f)⟩
    | .ok ns => some ⟨s, [], .gated (lookup key ns)⟩
  | lookup key ttl =>
    match key.toKey call with
    | .error f => some ⟨s, [], .finish (.error f)⟩
    | .ok k =>
      match s.store.find? k with
      | some r => some (renew s k r ttl)
      | none => some ⟨s, [], .go (register k ttl)⟩
  | register k ttl =>
    match s.store.find? k with
    | some r => some (renew s k r ttl)
    | none =>
      match s.pending? k with
      | none => some ⟨s.create k, [.joined k s.fresh], .go (acquire k ttl s.fresh)⟩
      | some c =>
        if c.owner = some t then some ⟨s, [], .finish (.error (.recursive k))⟩
        else some ⟨s, [.joined k c.id], .go (acquire k ttl c.id)⟩
  | acquire k ttl c =>
    if s.isHeld c then none else some ⟨s.hold c t, [], .go (claim k ttl c)⟩
  | claim k ttl c =>
    if s.isPending k c then some ⟨s.own c t, [.asked (.supply k)], .go (supply k ttl c)⟩
    else some ⟨s, [.retried k c], .go (again k ttl c)⟩
  | supply .. => none
  | insert k c l =>
    let what := if s.store.contains k then .overwritten k (s.record l) else .inserted k (s.record l)
    some ⟨s.put k l, [what], .go (withdraw k c (.ok (.value l.value)))⟩
  | withdraw k c o =>
    if s.isPending k c then some ⟨s.withdraw c, [.withdrawn k c], .go (release c o)⟩
    else some ⟨s, [], .go (release c o)⟩
  | release c o => some ⟨s.letGo c, [], .finish o⟩
  | again k ttl c => some ⟨s.letGo c, [], .go (register k ttl)⟩

def reply (s : Shared) : Fetch → Reply → Option (Turn Fetch)
  | supply k ttl c, .ok v => some ⟨s, [], .go (insert k c ⟨v, s.clock + ttl⟩)⟩
  | supply k _ c, .error f => some ⟨s, [], .go (withdraw k c (.error f))⟩
  | _, _ => none

def ask? : Fetch → Option Ask
  | supply k _ _ => some (.supply k)
  | _ => none

end Fetch

end Lapse
