import Lapse.Machine.Shared

/-!
Sweeps. A sweep passes the gate at most once per interval; it then goes through the keys stored
at that time and deletes every entry that has run out, is approved, and is still the same record
after the approval. The lock of the gate is never held while a callback runs.
-/

namespace Lapse

structure Pass where
  todo : List Key
  removed : Nat

inductive Sweep
  | begin
  | due (now : Int)
  | contend (now : Int)
  | recheck (now : Int)
  | snapshot
  | scan (p : Pass)
  | judge (p : Pass) (k : Key) (r : Record)
  | approval (p : Pass) (k : Key) (r : Record)
  | settle (p : Pass) (k : Key) (r : Record)
  | discard (p : Pass) (k : Key) (r : Record)
  | disposal (p : Pass) (k : Key) (r : Record)

def Pass.count (p : Pass) : Pass := { p with removed := p.removed + 1 }

namespace Sweep

def step (s : Shared) (t : Tid) : Sweep → Option (Turn Sweep)
  | begin => some ⟨s, [], .go (due s.clock)⟩
  | due now =>
    if now < s.due then some ⟨s, [], .finish (.ok (.count 0))⟩
    else some ⟨s, [], .go (contend now)⟩
  | contend now =>
    match s.gate with
    | some _ => some ⟨s, [], .finish (.ok (.count 0))⟩
    | none => some ⟨{ s with gate := some t }, [], .go (recheck now)⟩
  | recheck now =>
    if now < s.due then some ⟨{ s with gate := none }, [], .finish (.ok (.count 0))⟩
    else some ⟨{ s with gate := none, due := now + s.interval }, [.passed now], .go snapshot⟩
  | snapshot => some ⟨s, [], .go (scan ⟨s.store.keys, 0⟩)⟩
  | scan ⟨[], 0⟩ => some ⟨s, [], .finish (.ok (.count 0))⟩
  | scan ⟨[], n + 1⟩ => some ⟨s, [.logged (.swept (n + 1))], .finish (.ok (.count (n + 1)))⟩
  | scan ⟨k :: todo, n⟩ =>
    match s.store.find? k with
    | none => some ⟨s, [.examined k none], .go (scan ⟨todo, n⟩)⟩
    | some r => some ⟨s, [.examined k r], .go (judge ⟨todo, n⟩ k r)⟩
  | judge p k r =>
    if r.expired s.clock then
      if s.policy.checks then
        some ⟨s, [.judged k r s.clock, .asked (.check r.value)], .go (approval p k r)⟩
      else some ⟨s, [.judged k r s.clock], .go (settle p k r)⟩
    else some ⟨s, [.judged k r s.clock], .go (scan p)⟩
  | approval .. => none
  | settle p k r =>
    if s.isStored k r then some ⟨s.erase k, [.deleted k r], .go (discard p k r)⟩
    else some ⟨s, [], .go (scan p)⟩
  | discard p k r =>
    if s.policy.disposes then some ⟨s, [.asked (.dispose r.value)], .go (disposal p k r)⟩
    else some ⟨s, [], .go (scan p.count)⟩
  | disposal .. => none

/-- How a sweep goes on when the callback that it waits for ends. A fault of the predicate ends
the pass; an ordinary fault of the disposal action is only logged. -/
def reply (s : Shared) : Sweep → Reply → Option (Turn Sweep)
  | approval p k r, .ok v => some ⟨s, [], .go (if v.isTrue then settle p k r else scan p)⟩
  | approval .., .error f => some ⟨s, [], .finish (.error f)⟩
  | disposal p _ _, .ok _ => some ⟨s, [], .go (scan p.count)⟩
  | disposal p k _, .error f =>
    if f.isOrdinary then some ⟨s, [.logged (.disposalFailed k f)], .go (scan p.count)⟩
    else some ⟨s, [], .finish (.error f)⟩
  | _, _ => none

def ask? : Sweep → Option Ask
  | approval _ _ r => some (.check r.value)
  | disposal _ _ r => some (.dispose r.value)
  | _ => none

end Sweep

end Lapse
