import Lapse.Session.World

namespace Lapse

namespace World

def ended (last : Value) (argument default : Value) : Ending → Reply
  | .raise f => .error f
  | .argument => .ok argument
  | .last => .ok last
  | .value v => .ok v
  | .default => .ok default

def answer (w : World) (s : Step) : Ask → World × Activity
  | .supply k =>
    match s with
    | .fetch _ _ supplier => (w, .behave supplier k.toValue .null)
    | _ => (w, .behave default k.toValue .null)
  | .check v =>
    let (b, rules) := Rule.choose w.checks v
    ({ w with checks := rules }, .behave b v (.bool true))
  | .dispose v =>
    let (b, rules) := Rule.choose w.disposals v
    ({ w with disposals := rules }, .behave b v .null)

def attempt (w : World) (name : String) (choices : List Behaviour) : World × Behaviour :=
  let n := (w.attempts.lookup name).getD 0
  let w := { w with attempts := (name, n + 1) :: w.attempts.filter (·.1 != name) }
  (w, choices.getD (min n (choices.length - 1)) default)

def atOnce? (w : World) : Step → Option (World × Result)
  | .advance ns => some ({ w with machine := w.machine.advance ns }, .ok .null)
  | .newPatrol id interval =>
    match Patrol.create id (interval.getD (.float w.settings.patrolSeconds)) with
    | .error f => some (w, .error f)
    | .ok p => some ({ w with loop := w.loop.add p }, .ok .null)
  | .startPatrol id =>
    match w.loop.number? id with
    | none => some (w, .ok .null)
    | some n => some (w.startPatrol n, .ok .null)
  | .isRunning id => some (w, .ok (.bool ((w.loop.number? id).any w.loop.isRunning)))
  | .askStop id => some ({ w with stopping := id :: w.stopping }, .ok .null)
  | .join id => some (w, ((w.names.lookup id).map w.resultOf).getD (.ok .null))
  | _ => none

def begin (w : World) (a : Actor) (s : Step) (below : List Activity) : Option World :=
  match s with
  | .gate g =>
    some ((w.setActor { a with activities := .waiting g s :: below }).notice (.arrived g))
  | .spawn id first =>
    let (w, t) := w.spawn first
    some ({ w with names := (id, t) :: w.names }.defer a s below)
  | .release g => some ((w.openGate g).defer a s below)
  | _ =>
    match w.atOnce? s, s.op? with
    | some (w, r), _ => some (w.deliver a s r below)
    | none, none => none
    | none, some op =>
      (w.machine.call? a.tid op).map fun (m, events) =>
        (w.absorb m events).setActor
          { a with activities := .calling s w.machine.shared.fresh :: below }

def returned? (call : Nat) (events : List Event) : Option Outcome :=
  events.findSome? fun e =>
    match e.what with
    | .returned o => if e.call == call then some o else none
    | _ => none

def proceed (w : World) (a : Actor) (s : Step) (call : Nat) (below : List Activity) :
    Option World :=
  match (w.machine.frames a.tid).head?.bind (·.point.ask?) with
  | some ask =>
    let (w, activity) := w.answer s ask
    some (w.setActor { a with activities := activity :: .calling s call :: below })
  | none =>
    (w.machine.step? a.tid).map fun (m, events) =>
      let w := w.absorb m events
      match returned? call events with
      | none => w
      | some o => w.deliver a s (o.map Answer.toValue) below

def close (w : World) (a : Actor) (r : Reply) : List Activity → Option World
  | .calling s call :: below =>
    (w.machine.reply? a.tid r).map fun (m, events) =>
      (w.absorb m events).setActor { a with activities := .calling s call :: below }
  | below => some (w.setActor { a with activities := below, result := some r })

def move? (w : World) (a : Actor) : Option World :=
  match a.activities with
  | [] => none
  | .begin s :: below => w.begin a s below
  | .calling s call :: below => w.proceed a s call below
  | .waiting .. :: _ => none
  | .deferring _ :: _ => none
  | .behave (.attempts name choices) argument default :: below =>
    let (w, b) := w.attempt name choices
    some (w.setActor { a with activities := .behave b argument default :: below })
  | .behave (.plain lines ending) argument default :: below =>
    some (w.setActor { a with activities := .body lines .null ending argument default :: below })
  | .body [] last ending argument default :: below =>
    w.close a (ended last argument default ending) below
  | .body ((s, _) :: _) .. :: _ =>
    some (w.setActor { a with activities := .begin s :: a.activities })

/-- Moves threads, the first that can each time and those that defer last, until none can; at most
`fuel` times. -/
def settle : Nat → World → World
  | 0, w => w
  | fuel + 1, w =>
    match w.actors.findSome? w.move? <|> w.resume? with
    | some w => settle fuel w
    | none => w

end World

end Lapse
