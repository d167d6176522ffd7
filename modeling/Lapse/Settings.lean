import Lapse.Numeral.Real

namespace Lapse

def numberOr {α : Type} (read : String → Option α) (default : α) (raw : Option String) : α :=
  let text := trimBy isBlank (raw.getD "").toList
  if text = [] then default else (read (String.ofList text)).getD default

def nanosPerSecond : Int := 1000000000

structure Settings where
  sweepInterval : Int
  patrolSeconds : Binary64

def Settings.builtin : Settings where
  sweepInterval := 600 * nanosPerSecond
  patrolSeconds := .ofRatio false 60 1

def Settings.ofEnvironment (sweepInterval patrolSeconds : Option String) : Settings where
  sweepInterval :=
    numberOr (fun s => (readInteger s).toOption) Settings.builtin.sweepInterval sweepInterval
  patrolSeconds := numberOr readReal? Settings.builtin.patrolSeconds patrolSeconds

end Lapse
