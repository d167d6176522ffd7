import Lapse.Fault

namespace Lapse

inductive Log
  | swept (count : Nat)
  | disposalFailed (key : Key) (fault : Fault)
  | patrolFailed (fault : Fault)
  | patrolStarted (interval : Binary64)
  | patrolStopped

namespace Log

def fault? : Log → Option Fault
  | disposalFailed _ f => some f
  | patrolFailed f => some f
  | _ => none

def message : Log → String
  | swept n => "Swept " ++ toString n ++ " expired cache entries"
  | disposalFailed k _ => "Disposal of swept cache entry " ++ k.write ++ " failed"
  | patrolFailed _ => "Background cache sweep failed"
  | patrolStarted interval =>
    "Background sweeper started (every " ++ interval.writeFixed 3 .standard ++ "s)"
  | patrolStopped => "Background sweeper stopped"

def ofPatrol : Log → Bool
  | swept _ => false
  | disposalFailed .. => false
  | _ => true

end Log

end Lapse
