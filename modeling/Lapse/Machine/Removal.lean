import Lapse.Machine.Shared

namespace Lapse

/-- Where the removal of one key stands; a gated sweep follows it. From an empty store nothing is
removed, whether or not the value is a key. -/
inductive Erase
  | pop (key : Value)
  | discard (r : Record)
  | disposal (r : Record)
  | sweep
  | finish

namespace Erase

def step (s : Shared) (call : Nat) : Erase → Option (Turn Erase)
  | pop key =>
    if s.store.isEmpty then some ⟨s, [], .go sweep⟩
    else
      match key.toKey call with
      | .error f => some ⟨s, [], .finish (.error f)⟩
      | .ok k =>
        match s.store.find? k with
        | none => some ⟨s, [], .go sweep⟩
        | some r => some ⟨s.erase k, [.deleted k r], .go (discard r)⟩
  | discard r =>
    if s.policy.disposes then some ⟨s, [.asked (.dispose r.value)], .go (disposal r)⟩
    else some ⟨s, [], .go sweep⟩
  | disposal _ => none
  | sweep => some ⟨s, [], .gated finish⟩
  | finish => some ⟨s, [], .finish (.ok .unit)⟩

def reply (s : Shared) : Erase → Reply → Option (Turn Erase)
  | disposal _, .ok _ => some ⟨s, [], .go sweep⟩
  | disposal _, .error f => some ⟨s, [], .finish (.error f)⟩
  | _, _ => none

def ask? : Erase → Option Ask
  | disposal r => some (.dispose r.value)
  | _ => none

end Erase

structure Clearing where
  todo : List Key
  failures : List (Value × Fault)

inductive Clear
  | snapshot
  | scan (p : Clearing)
  | discard (p : Clearing) (k : Key) (r : Record)
  | disposal (p : Clearing) (k : Key) (r : Record)

namespace Clear

def step (s : Shared) : Clear → Option (Turn Clear)
  | snapshot => some ⟨s, [], .go (scan ⟨s.store.keys, []⟩)⟩
  | scan ⟨[], []⟩ => some ⟨s, [], .finish (.ok .unit)⟩
  | scan ⟨[], failures⟩ => some ⟨s, [], .finish (.error (.disposal failures))⟩
  | scan ⟨k :: todo, failures⟩ =>
    match s.store.find? k with
    | none => some ⟨s, [], .go (scan ⟨todo, failures⟩)⟩
    | some r => some ⟨s.erase k, [.deleted k r], .go (discard ⟨todo, failures⟩ k r)⟩
  | discard p k r =>
    if s.policy.disposes then some ⟨s, [.asked (.dispose r.value)], .go (disposal p k r)⟩
    else some ⟨s, [], .go (scan p)⟩
  | disposal .. => none

def reply (s : Shared) : Clear → Reply → Option (Turn Clear)
  | disposal p _ _, .ok _ => some ⟨s, [], .go (scan p)⟩
  | disposal p k _, .error f =>
    if f.isOrdinary then
      some ⟨s, [], .go (scan { p with failures := p.failures ++ [(k.toValue, f)] })⟩
    else some ⟨s, [], .finish (.error f)⟩
  | _, _ => none

def ask? : Clear → Option Ask
  | disposal _ _ r => some (.dispose r.value)
  | _ => none

end Clear

end Lapse
