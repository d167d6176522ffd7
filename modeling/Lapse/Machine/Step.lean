import Lapse.Machine.Sweep
import Lapse.Machine.Fetch
import Lapse.Machine.Removal

/-!
The machine: threads with stacks of calls over one shared state. A thread at rest, or inside a
callback, may call; a call that waits for a callback goes on when the callback ends; all other
calls go on by steps of their own, one access to the shared state each. Only the lock of another
thread's creation can keep a call from stepping.
-/

namespace Lapse

inductive Point
  | fetch (f : Fetch)
  | erase (e : Erase)
  | clear (c : Clear)
  | sweep (s : Sweep)
  | size
  | listing
  | interval
  | setInterval (ns : Value)
  | restart
  | done (o : Outcome)

def Op.start : Op → Point
  | fetch key ttl => .fetch (.coerce key ttl)
  | erase key => .erase (.pop key)
  | clear => .clear .snapshot
  | sweep => .sweep .begin
  | size => .size
  | listing => .listing
  | interval => .interval
  | setInterval ns => .setInterval ns

namespace Point

def step (s : Shared) (t : Tid) (call : Nat) : Point → Option (Turn Point)
  | fetch f => (f.step s t call).map (Turn.map fetch)
  | erase e => (e.step s call).map (Turn.map erase)
  | clear c => (c.step s).map (Turn.map clear)
  | sweep w => (w.step s t).map (Turn.map sweep)
  | size => some ⟨s, [], .finish (.ok (.count s.store.size))⟩
  | listing => some ⟨s, [], .finish (.ok (.listing s.store.toList))⟩
  | interval => some ⟨s, [], .finish (.ok (.nanos s.interval))⟩
  | setInterval ns =>
    match ns.toInteger with
    | .error f => some ⟨s, [], .finish (.error f)⟩
    | .ok n => some ⟨{ s with interval := n }, [], .go restart⟩
  | restart => some ⟨{ s with due := s.clock + s.interval }, [], .finish (.ok .unit)⟩
  | done _ => none

def reply (s : Shared) (r : Reply) : Point → Option (Turn Point)
  | fetch f => (f.reply s r).map (Turn.map fetch)
  | erase e => (e.reply s r).map (Turn.map erase)
  | clear c => (c.reply s r).map (Turn.map clear)
  | sweep w => (w.reply s r).map (Turn.map sweep)
  | _ => none

def ask? : Point → Option Ask
  | fetch f => f.ask?
  | erase e => e.ask?
  | clear c => c.ask?
  | sweep w => w.ask?
  | _ => none

end Point

structure Frame where
  call : Nat
  point : Point

/-- The calls in progress of each thread, the innermost first; a thread without an entry has
none. -/
structure Stacks where
  table : List (Tid × List Frame)

namespace Stacks

def get (s : Stacks) (t : Tid) : List Frame := (s.table.lookup t).getD []

def set (s : Stacks) (t : Tid) (frames : List Frame) : Stacks :=
  ⟨(t, frames) :: s.table.filter (·.1 != t)⟩

@[simp] theorem get_set (s : Stacks) (t : Tid) (frames : List Frame) :
    (s.set t frames).get t = frames := by
  simp [get, set]

@[simp] theorem get_set_of_ne (s : Stacks) {t u : Tid} (h : u ≠ t) (frames : List Frame) :
    (s.set t frames).get u = s.get u := by
  have : (u == t) = false := by simpa using h
  simp only [get, set, List.lookup_cons, this]
  congr 1
  induction s.table with
  | nil => rfl
  | cons p ps ih =>
    obtain ⟨v, fs⟩ := p
    by_cases hv : v = t
    · have : (u == v) = false := by simpa [hv] using h
      simp [hv, ih, List.lookup_cons, show (u == t) = false by simpa using h]
    · simp [hv, ih, List.lookup_cons]

end Stacks

structure Machine where
  shared : Shared
  calls : Stacks

inductive Label
  | call (t : Tid) (op : Op)
  | step (t : Tid)
  | reply (t : Tid) (r : Reply)
  | advance (ns : Int)

def mayCall : List Frame → Bool
  | [] => true
  | f :: _ => f.point.ask?.isSome

namespace Machine

def start (policy : Policy) (clock interval : Int) : Machine :=
  ⟨.start policy clock interval, ⟨[]⟩⟩

def frames (m : Machine) (t : Tid) : List Frame := m.calls.get t

def setFrames (m : Machine) (t : Tid) (frames : List Frame) : Machine :=
  { m with calls := m.calls.set t frames }

def push (m : Machine) (t : Tid) (op : Op) (frames : List Frame) : Machine × List Event :=
  let call := m.shared.fresh
  (⟨{ m.shared with fresh := call + 1 }, m.calls.set t (⟨call, op.start⟩ :: frames)⟩,
    [⟨t, call, .called op⟩])

def take (m : Machine) (t : Tid) (call : Nat) (rest : List Frame) (turn : Turn Point) :
    Machine × List Event :=
  let m := { m with shared := turn.shared }
  let happened := turn.happened.map (Event.mk t call)
  match turn.course with
  | .go p => (m.setFrames t (⟨call, p⟩ :: rest), happened)
  | .finish o => (m.setFrames t (⟨call, .done o⟩ :: rest), happened)
  | .gated p =>
    let (m, called) := m.push t .sweep (⟨call, p⟩ :: rest)
    (m, happened ++ called)

/-- Ends the innermost call. A callback that made it learns of the outcome by the event; a call
whose gated sweep it was goes on, or fails as the sweep did. -/
def finish (m : Machine) (t : Tid) (call : Nat) (o : Outcome) (rest : List Frame) :
    Machine × List Event :=
  let frames := match o, rest with
    | .error f, below :: others =>
      if mayCall rest then rest else ⟨below.call, .done (.error f)⟩ :: others
    | _, _ => rest
  (m.setFrames t frames, [⟨t, call, .returned o⟩])

def step? (m : Machine) (t : Tid) : Option (Machine × List Event) :=
  match m.frames t with
  | [] => none
  | ⟨call, .done o⟩ :: rest => some (m.finish t call o rest)
  | ⟨call, p⟩ :: rest => (p.step m.shared t call).map (m.take t call rest)

def reply? (m : Machine) (t : Tid) (r : Reply) : Option (Machine × List Event) :=
  match m.frames t with
  | [] => none
  | ⟨call, p⟩ :: rest =>
    (p.reply m.shared r).map fun turn =>
      let (m, happened) := m.take t call rest turn
      (m, ⟨t, call, .replied r⟩ :: happened)

def call? (m : Machine) (t : Tid) (op : Op) : Option (Machine × List Event) :=
  if mayCall (m.frames t) then some (m.push t op (m.frames t)) else none

def advance (m : Machine) (ns : Int) : Machine :=
  { m with shared := { m.shared with clock := m.shared.clock + ns } }

/-- The move that a label stands for, where it is possible, and what it shows. -/
def next? (m : Machine) : Label → Option (Machine × List Event)
  | .call t op => m.call? t op
  | .step t => m.step? t
  | .reply t r => m.reply? t r
  | .advance ns => some (m.advance ns, [])

end Machine

end Lapse
