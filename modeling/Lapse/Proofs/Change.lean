import Lapse.Machine.Run
import Lapse.Proofs.Rules

/-!
Elementary changes. A move of the machine is one of them or two: a call begins, a call takes a
turn, a call ends, a call fails with the sweep it waited for, or the clock is set. What every
elementary change keeps, every run keeps.
-/

namespace Lapse

theorem append_eq_append_cons {α : Type} {xs ys pre post : List α} {x : α}
    (h : xs ++ ys = pre ++ x :: post) :
    (∃ post', xs = pre ++ x :: post' ∧ post = post' ++ ys) ∨
      ∃ pre', pre = xs ++ pre' ∧ ys = pre' ++ x :: post := by
  obtain ⟨zs, rfl, hys⟩ | ⟨zs, rfl, hzs⟩ := List.append_eq_append_iff.1 h
  · exact .inr ⟨zs, rfl, hys⟩
  · cases zs with
    | nil => exact .inr ⟨[], by simp, hzs.symm⟩
    | cons z zs =>
      cases hzs
      exact .inl ⟨zs, rfl, rfl⟩

theorem append_cons_eq_singleton {α : Type} {xs ys : List α} {x y : α}
    (h : xs ++ x :: ys = [y]) : xs = [] ∧ ys = [] := by
  cases xs with
  | nil =>
    cases h
    exact ⟨rfl, rfl⟩
  | cons => simp at h

structure Timed extends Event where
  clock : Int

def Label.after (now : Int) : Label → Int
  | .advance ns => now + ns
  | _ => now

def clockAfter (now : Int) (h : List Move) : Int := h.foldl (fun now mv => mv.label.after now) now

/-- What a sequence of moves showed, with the clock's reading, when it began at `now`. -/
def chronicle : Int → List Move → List Timed
  | _, [] => []
  | now, mv :: h => mv.events.map (Timed.mk · now) ++ chronicle (mv.label.after now) h

theorem clockAfter_append (now : Int) (h : List Move) (mv : Move) :
    clockAfter now (h ++ [mv]) = mv.label.after (clockAfter now h) := by
  simp [clockAfter]

theorem chronicle_append (now : Int) (h : List Move) (mv : Move) :
    chronicle now (h ++ [mv]) =
      chronicle now h ++ mv.events.map (Timed.mk · (clockAfter now h)) := by
  induction h generalizing now with
  | nil => simp [chronicle, clockAfter]
  | cons first h ih =>
    simp only [List.cons_append, chronicle, ih, List.append_assoc]
    rfl

theorem toEvent_chronicle (now : Int) (h : List Move) :
    (chronicle now h).map Timed.toEvent = eventsOf h := by
  induction h generalizing now with
  | nil => rfl
  | cons mv h ih => simp [chronicle, eventsOf, Function.comp_def, ih]

def Course.next : Course Point → Point
  | .go p => p
  | .gated p => p
  | .finish o => .done o

@[simp] theorem Course.next_go (p : Point) : (go p).next = p := rfl

@[simp] theorem Course.next_gated (p : Point) : (gated p).next = p := rfl

@[simp] theorem Course.next_finish (o : Outcome) : (finish o).next = .done o := rfl

namespace Point

def awaitsSweep : Point → Bool
  | .fetch (.lookup ..) => true
  | .erase .finish => true
  | _ => false

def waits (p : Point) : Bool := p.ask?.isSome || p.awaitsSweep

end Point

def Shared.tell (s : Shared) (t : Tid) (call : Nat) (hs : List Happening) : List Timed :=
  hs.map fun x => ⟨⟨t, call, x⟩, s.clock⟩

namespace Machine

def MayBegin (m : Machine) (t : Tid) (op : Op) : Prop :=
  mayCall (m.frames t) = true ∨
    op = .sweep ∧ ∃ f rest, m.frames t = f :: rest ∧ f.point.awaitsSweep = true

def Shaped (m : Machine) : Prop := ∀ t, ∀ f ∈ (m.frames t).tail, f.point.waits = true

inductive Change : Machine → List Timed → Machine → Prop
  | advance (m : Machine) (ns : Int) : Change m [] (m.advance ns)
  | call {m : Machine} {t : Tid} {op : Op} : m.MayBegin t op →
    Change m (m.shared.tell t m.shared.fresh [.called op]) (m.push t op (m.frames t)).1
  | turn {m : Machine} {t : Tid} {call : Nat} {p : Point} {rest : List Frame}
    {hs : List Happening} {s : Shared} {c : Course Point} :
    m.frames t = ⟨call, p⟩ :: rest → p.Goes m.shared t call hs s c →
    Change m (m.shared.tell t call hs) ⟨s, m.calls.set t (⟨call, c.next⟩ :: rest)⟩
  | leave {m : Machine} {t : Tid} {call : Nat} {o : Outcome} {rest : List Frame} :
    m.frames t = ⟨call, .done o⟩ :: rest →
    Change m (m.shared.tell t call [.returned o]) (m.setFrames t rest)
  | fail {m : Machine} {t : Tid} {call : Nat} {p : Point} {rest : List Frame} (f : Fault) :
    m.frames t = ⟨call, p⟩ :: rest → p.awaitsSweep = true →
    Change m [] (m.setFrames t (⟨call, .done (.error f)⟩ :: rest))

/-- Elementary changes one after the other, and all that they show. -/
inductive Trace (m : Machine) : List Timed → Machine → Prop
  | start : Trace m [] m
  | next {es es' : List Timed} {m' m'' : Machine} :
    Trace m es m' → Change m' es' m'' → Trace m (es ++ es') m''

end Machine

namespace Stacks

@[simp] theorem set_set (s : Stacks) (t : Tid) (a b : List Frame) :
    (s.set t a).set t b = s.set t b := by
  simp [set, List.filter_filter]

end Stacks

namespace Machine

@[simp] theorem frames_mk_set (s : Shared) (c : Stacks) (t : Tid) (fs : List Frame) :
    frames ⟨s, c.set t fs⟩ t = fs := by
  simp [frames]

theorem frames_mk_set_of_ne (s : Shared) (m : Machine) {t u : Tid} (h : u ≠ t)
    (fs : List Frame) : frames ⟨s, m.calls.set t fs⟩ u = m.frames u := by
  simp [frames, h]

@[simp] theorem frames_setFrames (m : Machine) (t : Tid) (fs : List Frame) :
    (m.setFrames t fs).frames t = fs := by
  simp [frames, setFrames]

@[simp] theorem frames_start (policy : Policy) (clock interval : Int) (t : Tid) :
    (start policy clock interval).frames t = [] := rfl

theorem Shaped.start (policy : Policy) (clock interval : Int) :
    (start policy clock interval).Shaped := by
  intro t f hf
  simp at hf

theorem Shaped.set {m : Machine} (hm : m.Shaped) (s : Shared) {t : Tid} {fs : List Frame}
    (hfs : ∀ f ∈ fs.tail, f.point.waits = true) : Shaped ⟨s, m.calls.set t fs⟩ := by
  intro u f hf
  by_cases hu : u = t
  · subst hu
    rw [frames_mk_set] at hf
    exact hfs f hf
  · rw [frames_mk_set_of_ne _ _ hu] at hf
    exact hm u f hf

theorem Shaped.tail {m : Machine} (hm : m.Shaped) {t : Tid} {f : Frame} {rest : List Frame}
    (hf : m.frames t = f :: rest) : ∀ g ∈ rest, g.point.waits = true := by
  have := hm t
  rwa [hf] at this

theorem MayBegin.waits {m : Machine} {t : Tid} {op : Op} (h : m.MayBegin t op) {f : Frame}
    {rest : List Frame} (hf : m.frames t = f :: rest) : f.point.waits = true := by
  obtain h | ⟨-, g, gs, hg, h⟩ := h
  · rw [hf] at h
    simp only [mayCall] at h
    simp [Point.waits, h]
  · obtain ⟨rfl, -⟩ := List.cons.inj (hf.symm.trans hg)
    simp [Point.waits, h]

theorem Change.shaped {m m' : Machine} {es : List Timed} (h : Change m es m') (hm : m.Shaped) :
    m'.Shaped := by
  cases h with
  | advance ns => exact hm
  | @call t _ hb =>
    apply hm.set
    intro f hf
    cases hfs : m.frames t with
    | nil => simp [hfs] at hf
    | cons g rest =>
      rw [hfs] at hf
      obtain rfl | hf := List.mem_cons.1 hf
      · exact hb.waits hfs
      · exact hm.tail hfs f hf
  | turn hf _ => exact hm.set _ (hm.tail hf)
  | leave hf => exact hm.set _ fun g hg => hm.tail hf g (List.mem_of_mem_tail hg)
  | fail f hf _ => exact hm.set _ (hm.tail hf)

end Machine

namespace Point

/-- What no turn touches, and the numbers, which only run up. -/
structure Keeps (s s' : Shared) : Prop where
  clock : s'.clock = s.clock
  policy : s'.policy = s.policy
  fresh : s.fresh ≤ s'.fresh

theorem Goes.keeps {s s' : Shared} {t : Tid} {call : Nat} {p : Point} {c : Course Point}
    {hs : List Happening} (h : p.Goes s t call hs s' c) : Keeps s s' := by
  cases h with
  | fetch h =>
    cases h <;> constructor <;> simp [Shared.put, Shared.create, Shared.hold, Shared.own,
      Shared.withdraw, Shared.letGo]
  | erase h => cases h <;> constructor <;> simp [Shared.erase]
  | clear h => cases h <;> constructor <;> simp [Shared.erase]
  | sweep h => cases h <;> constructor <;> simp [Shared.erase]
  | _ => constructor <;> simp

theorem Goes.awaitsSweep {s s' : Shared} {t : Tid} {call : Nat} {p p' : Point}
    {hs : List Happening} (h : p.Goes s t call hs s' (.gated p')) : p'.awaitsSweep = true := by
  generalize hc : Course.gated p' = c at h
  cases h with
  | fetch h => cases h <;> cases hc; rfl
  | erase h => cases h <;> cases hc; rfl
  | clear h => cases h <;> cases hc
  | sweep h => cases h <;> cases hc
  | _ => cases hc

end Point

namespace Machine

theorem Trace.take {m : Machine} {t : Tid} {call : Nat} {p : Point} {rest : List Frame}
    {turn : Turn Point} (hs : List Happening) (hf : m.frames t = ⟨call, p⟩ :: rest)
    (hp : p.Goes m.shared t call (hs ++ turn.happened) turn.shared turn.course) :
    Trace m ((hs.map (Event.mk t call) ++ (m.take t call rest turn).2).map
      (Timed.mk · m.shared.clock)) (m.take t call rest turn).1 := by
  have first := Trace.start.next (Change.turn hf hp)
  obtain ⟨s, happened, course⟩ := turn
  cases course with
  | go p' => simpa [Machine.take, setFrames, Shared.tell, Function.comp_def] using first
  | finish o => simpa [Machine.take, setFrames, Shared.tell, Function.comp_def] using first
  | gated p' =>
    have hb : MayBegin ⟨s, m.calls.set t (⟨call, p'⟩ :: rest)⟩ t .sweep :=
      .inr ⟨rfl, ⟨call, p'⟩, rest, frames_mk_set .., hp.awaitsSweep⟩
    have second := first.next (.call hb)
    have hc : s.clock = m.shared.clock := hp.keeps.clock
    simpa [Machine.take, push, Shared.tell, Function.comp_def, hc] using second

theorem Trace.finish {m : Machine} (hm : m.Shaped) {t : Tid} {call : Nat} {o : Outcome}
    {rest : List Frame} (hf : m.frames t = ⟨call, .done o⟩ :: rest) :
    Trace m ((m.finish t call o rest).2.map (Timed.mk · m.shared.clock))
      (m.finish t call o rest).1 := by
  have first := Trace.start.next (Change.leave hf)
  cases o with
  | ok a => simpa [Machine.finish, Shared.tell] using first
  | error f =>
    cases rest with
    | nil => simpa [Machine.finish, Shared.tell] using first
    | cons below others =>
      cases hc : mayCall (below :: others) with
      | true => simpa [Machine.finish, Shared.tell, hc] using first
      | false =>
        have hw : below.point.awaitsSweep = true := by
          have := hm.tail hf below List.mem_cons_self
          simpa [Point.waits, show below.point.ask?.isSome = false from hc] using this
        have second := first.next (.fail f (frames_setFrames ..) hw)
        simpa [Machine.finish, Shared.tell, hc, setFrames] using second

theorem Shaped.trace {m m' : Machine} {l : Label} {es : List Event} (hm : m.Shaped)
    (h : m.next? l = some (m', es)) :
    Trace m (es.map (Timed.mk · m.shared.clock)) m' := by
  cases l with
  | call t op =>
    obtain ⟨hc, h⟩ := Option.ite_none_right_eq_some.1 h
    cases h
    exact Trace.start.next (.call (.inl hc))
  | step t =>
    simp only [next?, step?] at h
    split at h
    · cases h
    · cases h
      exact Trace.finish hm ‹_›
    · obtain ⟨turn, hp, hm'⟩ := Option.map_eq_some_iff.1 h
      have := Trace.take [] ‹_› (Point.goes_of_step hp)
      rw [hm'] at this
      simpa using this
  | reply t r =>
    simp only [next?, reply?] at h
    split at h
    · cases h
    · obtain ⟨turn, hp, hm'⟩ := Option.map_eq_some_iff.1 h
      have := Trace.take [.replied r] ‹_› (Point.goes_of_reply hp)
      cases hm'
      simpa using this
  | advance ns =>
    cases h
    exact Trace.start.next (.advance m ns)

theorem Trace.trans {m m' m'' : Machine} {es es' : List Timed} (h : Trace m es m')
    (h' : Trace m' es' m'') : Trace m (es ++ es') m'' := by
  induction h' with
  | start => simpa using h
  | next _ hc ih =>
    rw [← List.append_assoc]
    exact ih.next hc

theorem Trace.invariant {P : Machine → Prop}
    (keep : ∀ {m m' : Machine} {es : List Timed}, P m → Change m es m' → P m')
    {m m' : Machine} {es : List Timed} (h : Trace m es m') (hm : P m) : P m' := by
  induction h with
  | start => exact hm
  | next _ hc ih => exact keep ih hc

theorem Trace.locate {m m' : Machine} {es pre post : List Timed} {e : Timed} (h : Trace m es m')
    (he : es = pre ++ e :: post) : ∃ es₀ m₀ m₁ xs ys, Trace m es₀ m₀ ∧
      Change m₀ (xs ++ e :: ys) m₁ ∧ pre = es₀ ++ xs := by
  induction h generalizing pre post with
  | start => simp at he
  | next ht hc ih =>
    obtain ⟨post', hes, -⟩ | ⟨xs, rfl, rfl⟩ := append_eq_append_cons he
    · exact ih hes
    · exact ⟨_, _, _, xs, post, ht, hc, rfl⟩

theorem Trace.shaped {m m' : Machine} {es : List Timed} (h : Trace m es m') (hm : m.Shaped) :
    m'.Shaped :=
  h.invariant (fun hm hc => hc.shaped hm) hm

theorem clock_take (m : Machine) (t : Tid) (call : Nat) (rest : List Frame)
    (turn : Turn Point) : (m.take t call rest turn).1.shared.clock = turn.shared.clock := by
  obtain ⟨s, happened, course⟩ := turn
  cases course <;> rfl

theorem clock_next? {m m' : Machine} {l : Label} {es : List Event}
    (h : m.next? l = some (m', es)) : m'.shared.clock = l.after m.shared.clock := by
  cases l with
  | call t op =>
    obtain ⟨-, h⟩ := Option.ite_none_right_eq_some.1 h
    cases h
    rfl
  | step t =>
    simp only [next?, step?] at h
    split at h
    · cases h
    · cases h
      rfl
    · obtain ⟨turn, hp, hm'⟩ := Option.map_eq_some_iff.1 h
      have := clock_take m t ‹_› ‹_› turn
      rw [hm'] at this
      exact this.trans (Point.goes_of_step hp).keeps.clock
  | reply t r =>
    simp only [next?, reply?] at h
    split at h
    · cases h
    · obtain ⟨turn, hp, hm'⟩ := Option.map_eq_some_iff.1 h
      cases hm'
      exact (clock_take m t ‹_› ‹_› turn).trans (@Point.goes_of_reply _ t 0 _ _ _ hp).keeps.clock
  | advance ns =>
    cases h
    rfl

end Machine

theorem Run.trace {policy : Policy} {clock interval : Int} {h : List Move} {m : Machine}
    (hr : Run (.start policy clock interval) h m) :
    Machine.Trace (.start policy clock interval) (chronicle clock h) m := by
  suffices Machine.Trace (.start policy clock interval) (chronicle clock h) m ∧
      m.shared.clock = clockAfter clock h from this.1
  induction hr with
  | start => exact ⟨.start, rfl⟩
  | next _ hl ih =>
    rw [chronicle_append, clockAfter_append, ← ih.2]
    have hm := ih.1.shaped (.start policy clock interval)
    exact ⟨ih.1.trans (hm.trace hl), Machine.clock_next? hl⟩

def Machine.perform (m : Machine) : List Label → List Move × Machine
  | [] => ([], m)
  | l :: ls =>
    match m.next? l with
    | none => m.perform ls
    | some (m', es) => ((⟨l, es⟩ : Move) :: (m'.perform ls).1, (m'.perform ls).2)

theorem Run.perform (m : Machine) (ls : List Label) : Run m (m.perform ls).1 (m.perform ls).2 := by
  induction ls generalizing m with
  | nil => exact .start
  | cons l ls ih =>
    simp only [Machine.perform]
    split
    · exact ih m
    · rename_i m' es hl
      exact (Run.start.next hl).trans (ih m')

end Lapse
