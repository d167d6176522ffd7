import Lapse.Proofs.Chart

/-!
The plain cache: a list of slots, the interval and the time of the next sweep. It serves one caller
at a time, so it needs no lock, copies no keys and looks nothing up again. What an operation does is
a plan, which may ask callbacks and go on as they answer.
-/

namespace Lapse

inductive Plan (α : Type)
  | done (a : α)
  | clock (rest : Int → Plan α)
  | log (l : Log) (rest : Plan α)
  | ask (a : Ask) (rest : Reply → Plan α)

namespace Plan

def bind {α β : Type} : Plan α → (α → Plan β) → Plan β
  | done a, f => f a
  | clock rest, f => clock fun now => (rest now).bind f
  | log l rest, f => log l (rest.bind f)
  | ask a rest, f => ask a fun r => (rest r).bind f

def approve (policy : Policy) (v : Value) : Plan (Except Fault Bool) :=
  if policy.checks then ask (.check v) fun r => done (r.map (·.isTrue)) else done (.ok true)

def dispose (policy : Policy) (v : Value) : Plan Reply :=
  if policy.disposes then ask (.dispose v) done else done (.ok .null)

/-- Traverses the list once. Slots that are kept so far stand before those to come; a fault that
ends the traversal leaves these as they are. -/
def walk (policy : Policy) (kept : List Slot) (n : Nat) :
    List Slot → Plan (Except Fault Nat × List Slot)
  | [] => if n = 0 then done (.ok 0, kept) else log (.swept n) (done (.ok n, kept))
  | s :: todo => clock fun now =>
    if s.deadline < now then
      (approve policy s.value).bind fun
        | .error f => done (.error f, kept ++ s :: todo)
        | .ok false => walk policy (kept ++ [s]) n todo
        | .ok true => (dispose policy s.value).bind fun
          | .ok _ => walk policy kept (n + 1) todo
          | .error f =>
            if f.isOrdinary then log (.disposalFailed s.key f) (walk policy kept (n + 1) todo)
            else done (.error f, kept ++ todo)
    else walk policy (kept ++ [s]) n todo

def drain (policy : Policy) (failures : List (Value × Fault)) :
    List Slot → Plan (Outcome × List Slot)
  | [] => done (if failures.isEmpty then .ok .unit else .error (.disposal failures), [])
  | s :: todo => (dispose policy s.value).bind fun
    | .ok _ => drain policy failures todo
    | .error f =>
      if f.isOrdinary then drain policy (failures ++ [(s.key.toValue, f)]) todo
      else done (.error f, todo)

end Plan

structure Ledger where
  slots : List Slot
  interval : Int
  due : Int

namespace Ledger

open Plan

def find? (l : Ledger) (k : Key) : Option Slot := l.slots.find? (·.key.same k)

def renew (l : Ledger) (k : Key) (deadline : Int) : Ledger :=
  { l with slots := l.slots.map fun s =>
      if s.key.same k then { s with deadline := deadline } else s }

def append (l : Ledger) (s : Slot) : Ledger := { l with slots := l.slots ++ [s] }

def erase (l : Ledger) (k : Key) : Ledger :=
  { l with slots := l.slots.filter fun s => !s.key.same k }

def sweep (policy : Policy) (l : Ledger) : Plan (Except Fault Nat × Ledger) :=
  clock fun now =>
    if now < l.due then done (.ok 0, l)
    else (walk policy [] 0 l.slots).bind fun (o, slots) =>
      done (o, { l with slots := slots, due := now + l.interval })

def fetch (policy : Policy) (call : Nat) (key ttl : Value) (l : Ledger) :
    Plan (Outcome × Ledger) :=
  match ttl.toInteger with
  | .error f => done (.error f, l)
  | .ok ns => (l.sweep policy).bind fun
    | (.error f, l) => done (.error f, l)
    | (.ok _, l) =>
      match key.toKey call with
      | .error f => done (.error f, l)
      | .ok k =>
        match l.find? k with
        | some s => clock fun now => done (.ok (.value s.value), l.renew k (now + ns))
        | none => ask (.supply k) fun
          | .error f => done (.error f, l)
          | .ok v => clock fun now => done (.ok (.value v), l.append ⟨k, v, now + ns⟩)

def sweepAfter (policy : Policy) (l : Ledger) : Plan (Outcome × Ledger) :=
  (l.sweep policy).bind fun (o, l) => done (o.map fun _ => .unit, l)

/-- From an empty list nothing is removed, whether or not the value is a key. -/
def remove (policy : Policy) (call : Nat) (key : Value) (l : Ledger) : Plan (Outcome × Ledger) :=
  if l.slots.isEmpty then l.sweepAfter policy
  else
    match key.toKey call with
    | .error f => done (.error f, l)
    | .ok k =>
      match l.find? k with
      | none => l.sweepAfter policy
      | some s => (dispose policy s.value).bind fun
        | .ok _ => (l.erase k).sweepAfter policy
        | .error f => done (.error f, l.erase k)

def perform (policy : Policy) (call : Nat) (l : Ledger) : Op → Plan (Outcome × Ledger)
  | .fetch key ttl => l.fetch policy call key ttl
  | .erase key => l.remove policy call key
  | .clear => (drain policy [] l.slots).bind fun (o, slots) => done (o, { l with slots := slots })
  | .sweep => (l.sweep policy).bind fun (o, l) => done (o.map .count, l)
  | .size => done (.ok (.count l.slots.length), l)
  | .listing => done (.ok (.listing (l.slots.map fun s => (s.key, s.value))), l)
  | .interval => done (.ok (.nanos l.interval), l)
  | .setInterval ns =>
    match ns.toInteger with
    | .error f => done (.error f, l)
    | .ok n => clock fun now => done (.ok .unit, { l with interval := n, due := now + n })

end Ledger

inductive Input
  | call (call : Nat) (op : Op)
  | reply (r : Reply)
  | advance (ns : Int)

inductive Signal
  | input (i : Input)
  | asked (a : Ask)
  | logged (l : Log)
  | returned (o : Outcome)

inductive Stand
  | idle (now : Int) (l : Ledger)
  | inside (now : Int) (rest : Reply → Plan (Outcome × Ledger))

def Plan.play (now : Int) : Plan (Outcome × Ledger) → List Signal × Stand
  | done (o, l) => ([.returned o], .idle now l)
  | clock rest => (rest now).play now
  | log l rest => (.logged l :: (rest.play now).1, (rest.play now).2)
  | ask a rest => ([.asked a], .inside now rest)

namespace Stand

def take (policy : Policy) : Stand → Input → List Signal × Stand
  | idle now l, .call call op => (l.perform policy call op).play now
  | inside now rest, .reply r => (rest r).play now
  | idle now l, .advance ns => ([], idle (now + ns) l)
  | inside now rest, .advance ns => ([], inside (now + ns) rest)
  | st, _ => ([], st)

def respond (policy : Policy) (st : Stand) : List Input → List Signal × Stand
  | [] => ([], st)
  | i :: is =>
    (.input i :: (st.take policy i).1 ++ ((st.take policy i).2.respond policy is).1,
      ((st.take policy i).2.respond policy is).2)

theorem respond_concat (policy : Policy) (st : Stand) (is : List Input) (i : Input) :
    st.respond policy (is ++ [i]) =
      ((st.respond policy is).1 ++ .input i :: ((st.respond policy is).2.take policy i).1,
        ((st.respond policy is).2.take policy i).2) := by
  induction is generalizing st with
  | nil => simp [respond]
  | cons j is ih => simp [respond, ih]

end Stand

end Lapse
