import Lapse.Machine.Step
import Lapse.Patrol
import Lapse.Settings
import Lapse.Session.Script

namespace Lapse

abbrev Result := Except Fault Value

inductive Notice
  | asked (a : Ask)
  | logged (l : Log)
  | slept (patrol : String) (seconds : Binary64)
  | arrived (gate : String)
  | nested (s : Step) (r : Result)

def Event.notice? (e : Event) : Option Notice :=
  match e.what with
  | .asked a => some (.asked a)
  | .logged l => some (.logged l)
  | _ => none

inductive Activity
  | begin (s : Step)
  | calling (s : Step) (call : Nat)
  | waiting (gate : String) (s : Step)
  | deferring (s : Step)
  | behave (b : Behaviour) (argument default : Value)
  | body (lines : List Line) (last : Value) (ending : Ending) (argument default : Value)

structure Actor where
  tid : Tid
  activities : List Activity
  result : Option Result

def mainThread : Tid := 0

structure World where
  machine : Machine
  loop : Loop
  settings : Settings
  checks : List Rule
  disposals : List Rule
  attempts : List (String × Nat)
  actors : List Actor
  deferring : List Tid
  names : List (String × Tid)
  stopping : List String
  notices : List Notice

namespace World

def actor? (w : World) (t : Tid) : Option Actor := w.actors.find? (·.tid == t)

def setActor (w : World) (a : Actor) : World :=
  { w with actors := w.actors.map fun b => if b.tid == a.tid then a else b }

def notice (w : World) (n : Notice) : World := { w with notices := n :: w.notices }

def absorb (w : World) (m : Machine) (events : List Event) : World :=
  { w with machine := m, notices := (events.filterMap Event.notice?).reverse ++ w.notices }

def startPatrol (w : World) (n : Nat) : World :=
  match w.loop.patrols[n]?, w.loop.isRunning n with
  | some p, false => { w with loop := w.loop.start n }.notice (.logged (.patrolStarted p.interval))
  | _, _ => w

def deliver (w : World) (a : Actor) (s : Step) (r : Result) : List Activity → World
  | .body ((_, insists) :: lines) _ ending argument default :: below =>
    let last := match r with
      | .ok v => v
      | .error _ => .null
    let body : Activity := match r, insists with
      | .error f, true => .body [] last (.raise f) argument default
      | _, _ => .body lines last ending argument default
    (w.setActor { a with activities := body :: below }).notice (.nested s r)
  | below => w.setActor { a with activities := below, result := some r }

def assign (w : World) (t : Tid) (activities : List Activity) : World :=
  let a : Actor := ⟨t, activities, none⟩
  if (w.actor? t).isSome then w.setActor a else { w with actors := w.actors ++ [a] }

def resultOf (w : World) (t : Tid) : Result := ((w.actor? t).bind (·.result)).getD (.ok .null)

def spawn (w : World) (s : Step) : World × Tid :=
  let t := (w.actors.map (·.tid)).foldl max mainThread + 1
  (w.assign t [.begin s], t)

def spawnAll (w : World) : List Step → World × List Tid
  | [] => (w, [])
  | s :: steps =>
    let (w, t) := w.spawn s
    let (w, ts) := w.spawnAll steps
    (w, t :: ts)

def openGate (w : World) (gate : String) : World :=
  w.actors.foldl (fun w a =>
    match a.activities with
    | .waiting g s :: below => if g == gate then w.deliver a s (.ok .null) below else w
    | _ => w) w

def defer (w : World) (a : Actor) (s : Step) (below : List Activity) : World :=
  let w : World := { w with deferring := a.tid :: w.deferring }
  w.setActor { a with activities := .deferring s :: below }

def resume? (w : World) : Option World :=
  match w.deferring with
  | [] => none
  | t :: ts =>
    let w : World := { w with deferring := ts }
    match w.actor? t with
    | none => some w
    | some a =>
      match a.activities with
      | .deferring s :: below => some (w.deliver a s (.ok .null) below)
      | _ => some w

end World

end Lapse
