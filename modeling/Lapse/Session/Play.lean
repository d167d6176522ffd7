import Lapse.Session.Move

namespace Lapse

/-- More moves than a session that ends is allowed to make in one act. -/
def patience : Nat := 1000000000000

inductive Out
  | one (r : Result)
  | many (rs : List Result)

structure Row where
  out : Out
  notices : List Notice
  size : Nat
  entries : List (Key × Value)

structure Session where
  settings : Settings
  now : Int
  interval : Option Value
  checks : Option (List Rule)
  disposals : Option (List Rule)
  acts : List Act

namespace World

def perform (w : World) (activities : List Activity) : World × Result :=
  let w := (w.assign mainThread activities).settle patience
  (w, w.resultOf mainThread)

def round (w : World) : World × Option Fault :=
  match w.perform [.begin .sweep] with
  | (w, .ok _) => (w, none)
  | (w, .error f) =>
    if f.isOrdinary then (w.notice (.logged (.patrolFailed f)), none) else (w, some f)

def turn (w : World) (n : Nat) : World :=
  match w.loop.tasks[n]? with
  | none => w
  | some t =>
    let w : World := { w with loop := w.loop.rise n }
    if t.cancelled then { w with loop := w.loop.finish n .cancelled }
    else
      match w.round with
      | (w, some f) => { w with loop := w.loop.finish n (.failed f) }
      | (w, none) =>
        match w.loop.patrols[t.patrol]? with
        | none => w
        | some p => { w with loop := w.loop.sleep n p.id }.notice (.slept p.id p.interval)

def turns : Nat → World → World
  | 0, w => w
  | n + 1, w =>
    match w.loop.queue with
    | [] => w
    | .caller :: queue => { w with loop := { w.loop with queue := queue } }
    | .task m :: queue => turns n ({ w with loop := { w.loop with queue := queue } }.turn m)

/-- Awaits the end of a task that is in the queue. The caller's turn comes behind the turns that are
in the queue when the task ends. -/
def await (w : World) (n : Nat) : World :=
  let w : World := { w with loop := { w.loop with awaited := some n } }
  let w := w.turns w.loop.queue.length
  w.turns w.loop.queue.length

/-- Stops a patrol: calls its task off and awaits the end. What the task failed with, if it had
ended so, is the result. -/
def stopPatrol (w : World) (n : Nat) : World × Result :=
  match w.loop.patrols[n]?.bind (·.task) with
  | none => (w, .ok .null)
  | some m =>
    let running := w.loop.isRunning n
    let w : World := { w with loop := w.loop.cancel m }
    let w := if running then w.await m else w
    let w : World := { w with loop := w.loop.know n none }
    match w.loop.tasks[m]? with
    | some ⟨_, .ended (.failed f), _⟩ => (w, .error f)
    | _ => (w.notice (.logged .patrolStopped), .ok .null)

def take (w : World) : List Line → World × Option Fault
  | [] => (w, none)
  | (s, insists) :: lines =>
    match w.perform [.begin s] with
    | (w, r) =>
      let w := w.notice (.nested s r)
      match r, insists with
      | .error f, true => (w, some f)
      | _, _ => w.take lines

def rounds (w : World) (p : Patrol) (stop : StopAt) : List (List Line) → World × Result
  | [] => (w, .ok .null)
  | lines :: later =>
    if stop ≠ .never && w.stopping.contains p.id then (w, .ok .null)
    else
      match w.round with
      | (w, some f) => (w, .error f)
      | (w, none) =>
        match (w.notice (.slept p.id p.interval)).take lines with
        | (w, some f) => (w, .error f)
        | (w, none) =>
          if later.isEmpty && stop = .never then (w, .error .cancelled) else w.rounds p stop later

def run (w : World) (p : Patrol) (stop : StopAt) (sleeps : List (List Line)) : World × Result :=
  let stopping := w.stopping.filter (· != p.id)
  let w := { w with stopping := match stop with
    | .atOnce => p.id :: stopping
    | _ => stopping }
  w.rounds p stop (if sleeps.isEmpty then [[]] else sleeps)

def act (w : World) : Act → World × Out
  | .step s =>
    let (w, r) := w.perform [.begin s]
    (w, .one r)
  | .stopPatrol id =>
    match w.loop.number? id with
    | none => (w, .one (.ok .null))
    | some n =>
      let (w, r) := w.stopPatrol n
      (w, .one r)
  | .yield => (w.turns patience, .one (.ok .null))
  | .tick id =>
    match w.loop.wake? id with
    | none => (w, .one (.ok (.bool false)))
    | some l => ({ w with loop := l }.turns patience, .one (.ok (.bool true)))
  | .run id stop sleeps =>
    match (w.loop.number? id).bind (w.loop.patrols[·]?) with
    | none => (w, .one (.ok .null))
    | some p =>
      let (w, r) := w.run p stop sleeps
      (w, .one r)
  | .race steps =>
    let (w, tids) := w.spawnAll steps
    let w := w.settle patience
    (w, .many (tids.map w.resultOf))

def play (w : World) (a : Act) : World × Row :=
  let (w, out) := { w with notices := [] }.act a
  let store := w.machine.shared.store
  (w, ⟨out, w.notices.reverse, store.size, store.toList⟩)

def playAll (w : World) : List Act → List Row
  | [] => []
  | a :: acts =>
    let (w, row) := w.play a
    row :: w.playAll acts

end World

namespace Session

def start (s : Session) : Except Fault World :=
  match (s.interval.getD (.int s.settings.sweepInterval)).toInteger with
  | .error f => .error f
  | .ok interval => .ok {
      machine := .start ⟨s.checks.isSome, s.disposals.isSome⟩ s.now interval
      loop := .empty
      settings := s.settings
      checks := s.checks.getD []
      disposals := s.disposals.getD []
      attempts := []
      actors := []
      deferring := []
      names := []
      stopping := []
      notices := [] }

def rows (s : Session) : Except Fault (List Row) := s.start.map (·.playAll s.acts)

end Session

end Lapse
