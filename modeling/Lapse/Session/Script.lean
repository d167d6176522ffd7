import Lapse.Machine.Event

namespace Lapse

inductive Ending
  | raise (f : Fault)
  | argument
  | last
  | value (v : Value)
  | default

mutual

inductive Behaviour
  | plain (lines : List (Step × Bool)) (ending : Ending)
  | attempts (name : String) (choices : List Behaviour)

/-- A step that a caller or a callback may take. In a callback it is marked whether its fault is
to be the callback's own. -/
inductive Step
  | fetch (key ttl : Value) (supplier : Behaviour)
  | erase (key : Value)
  | clear
  | sweep
  | size
  | length
  | listing
  | interval
  | setInterval (ns : Value)
  | advance (ns : Int)
  | gate (name : String)
  | newPatrol (id : String) (interval : Option Value)
  | startPatrol (id : String)
  | isRunning (id : String)
  | askStop (id : String)
  | spawn (id : String) (s : Step)
  | release (gate : String)
  | join (id : String)

end

instance : Inhabited Behaviour := ⟨.plain [] .default⟩

abbrev Line := Step × Bool

def Step.op? : Step → Option Op
  | fetch key ttl _ => some (.fetch key ttl)
  | erase key => some (.erase key)
  | clear => some .clear
  | sweep => some .sweep
  | size => some .size
  | length => some .size
  | listing => some .listing
  | interval => some .interval
  | setInterval ns => some (.setInterval ns)
  | _ => none

structure Rule where
  only : Option Value
  left : Option Nat
  behaviour : Behaviour

def Rule.applies (r : Rule) (v : Value) : Bool :=
  (match r.only with
    | none => true
    | some w => w.identical v) && r.left != some 0

def Rule.use (r : Rule) : Rule := { r with left := r.left.map (· - 1) }

def Rule.choose : List Rule → Value → Behaviour × List Rule
  | [], _ => (default, [])
  | r :: rs, v =>
    if r.applies v then (r.behaviour, r.use :: rs)
    else
      let (b, rs) := choose rs v
      (b, r :: rs)

/-- When a patrol that runs in place is to stop: after its last sleep, at once, or never, being
called off in its last sleep. -/
inductive StopAt
  | afterLast
  | atOnce
  | never
  deriving DecidableEq

inductive Act
  | step (s : Step)
  | stopPatrol (id : String)
  | yield
  | tick (id : String)
  | run (id : String) (stop : StopAt) (sleeps : List (List Line))
  | race (steps : List Step)

end Lapse
