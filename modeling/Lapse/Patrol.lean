import Lapse.Log

/-!
Patrols: background tasks that sweep, sleep for their interval and begin again. Tasks take turns
in a queue; each runs until it sleeps or ends, so nothing else happens meanwhile except what its
sweep's callbacks do.
-/

namespace Lapse

inductive TaskEnd
  | cancelled
  | failed (f : Fault)

inductive Stage
  | fresh
  | asleep
  | woken
  | ended (how : TaskEnd)

/-- The rounds that one start of a patrol set going. A task that is called off ends at its next
turn. -/
structure Task where
  patrol : Nat
  stage : Stage
  cancelled : Bool

def Task.isEnded (t : Task) : Bool :=
  match t.stage with
  | .ended _ => true
  | _ => false

def Task.isAsleep (t : Task) : Bool :=
  match t.stage with
  | .asleep => true
  | _ => false

structure Patrol where
  id : String
  interval : Binary64
  task : Option Nat

/-- An interval must not be zero or below; a not-a-number passes. -/
def Patrol.create (id : String) (interval : Value) : Except Fault Patrol :=
  match interval.toReal with
  | .error f => .error f
  | .ok x => if x.nonPositive then .error (.nonPositiveInterval x) else .ok ⟨id, x, none⟩

inductive Turned
  | task (n : Nat)
  | caller

/-- All patrols and tasks by their numbers, the queue, the task whose end the caller awaits, and for
each name the task that last fell asleep under it, until a sleep under that name is over. -/
structure Loop where
  patrols : List Patrol
  tasks : List Task
  queue : List Turned
  awaited : Option Nat
  sleepers : List (String × Nat)

namespace Loop

def empty : Loop := ⟨[], [], [], none, []⟩

def add (l : Loop) (p : Patrol) : Loop := { l with patrols := l.patrols ++ [p] }

def number? (l : Loop) (id : String) : Option Nat :=
  ((l.patrols.zipIdx.filter fun (p, _) => p.id == id).getLast?).map (·.2)

def know (l : Loop) (n : Nat) (task : Option Nat) : Loop :=
  match l.patrols[n]? with
  | none => l
  | some p => { l with patrols := l.patrols.set n { p with task := task } }

def setStage (l : Loop) (n : Nat) (stage : Stage) : Loop :=
  match l.tasks[n]? with
  | none => l
  | some t => { l with tasks := l.tasks.set n { t with stage := stage } }

def callOff (l : Loop) (n : Nat) : Loop :=
  match l.tasks[n]? with
  | none => l
  | some t => { l with tasks := l.tasks.set n { t with cancelled := true } }

def enqueue (l : Loop) (t : Turned) : Loop := { l with queue := l.queue ++ [t] }

def isRunning (l : Loop) (n : Nat) : Bool :=
  match (l.patrols[n]?.bind (·.task)).bind (l.tasks[·]?) with
  | some t => !t.isEnded
  | none => false

def start (l : Loop) (n : Nat) : Loop :=
  if l.isRunning n then l
  else
    let task : Task := ⟨n, .fresh, false⟩
    let number := l.tasks.length
    (({ l with tasks := l.tasks ++ [task] }.know n (some number)).enqueue (.task number))

def cancel (l : Loop) (n : Nat) : Loop :=
  match l.tasks[n]? with
  | none => l
  | some t =>
    match t.stage with
    | .ended _ => l
    | .asleep => ((l.callOff n).setStage n .woken).enqueue (.task n)
    | _ => l.callOff n

def finish (l : Loop) (n : Nat) (how : TaskEnd) : Loop :=
  let l := l.setStage n (.ended how)
  if l.awaited = some n then { l.enqueue .caller with awaited := none } else l

/-- Puts a task to sleep under a name; an earlier sleeper of that name is out of reach. -/
def sleep (l : Loop) (n : Nat) (id : String) : Loop :=
  { l.setStage n .asleep with sleepers := (id, n) :: l.sleepers.filter (·.1 != id) }

def rise (l : Loop) (n : Nat) : Loop :=
  match l.tasks[n]? with
  | some ⟨p, .woken, _⟩ =>
    { l with sleepers := l.sleepers.filter fun (id, _) => !(l.patrols[p]?).any (·.id == id) }
  | _ => l

def sleeper? (l : Loop) (id : String) : Option Nat :=
  (l.sleepers.lookup id).filter fun n => (l.tasks[n]?).any (·.isAsleep)

def wake? (l : Loop) (id : String) : Option Loop :=
  (l.sleeper? id).map fun n => (l.setStage n .woken).enqueue (.task n)

end Loop

end Lapse
