import Lapse.Machine.Step

namespace Lapse

structure Move where
  label : Label
  events : List Event

inductive Run (m : Machine) : List Move → Machine → Prop
  | start : Run m [] m
  | next {h : List Move} {m' m'' : Machine} {l : Label} {es : List Event} :
    Run m h m' → m'.next? l = some (m'', es) → Run m (h ++ [⟨l, es⟩]) m''

def eventsOf (h : List Move) : List Event := h.flatMap (·.events)

namespace Run

theorem trans {m m' m'' : Machine} {g h : List Move} (hg : Run m g m') (hh : Run m' h m'') :
    Run m (g ++ h) m'' := by
  induction hh with
  | start => simpa using hg
  | next _ hl ih => simpa using ih.next hl

end Run

end Lapse
