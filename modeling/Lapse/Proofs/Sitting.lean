import Lapse.Proofs.Causes
import Lapse.Proofs.Countdown
import Lapse.Proofs.Hosted

namespace Lapse

structure Demand where
  clock : Int
  op : Op

structure Service extends Demand where
  call : Nat
  events : List Event
  left : Shared

namespace Service

def passes (x : Service) : List Int := x.events.filterMap (·.what.passed?)

def supplied (x : Service) : List Key := Lapse.supplied (signals (some x.call) x.events)

def outcomes (x : Service) : List Outcome :=
  (signals (some x.call) x.events).filterMap (·.returned?)

end Service

/-- From one idle moment of the thread to the next: the clock is set, a call made and let go on to
its end. -/
inductive Serves (host : Host) (t : Tid) (m : Machine) : Service → Machine → Prop
  | intro {ns : Int} {op : Op} {evs : List Event} {m₁ m' : Machine} {w : List Move} :
    (m.advance ns).call? t op = some (m₁, evs) → Run m₁ w m' →
    Throughout (Label.Attends host t) m₁ w → m'.frames t = [] →
    Serves host t m ⟨⟨m.shared.clock + ns, op⟩, m.shared.fresh, evs ++ eventsOf w, m'.shared⟩ m'

inductive Sitting (host : Host) (t : Tid) : Machine → List Service → Prop
  | nil (m : Machine) : Sitting host t m []
  | cons {m m' : Machine} {x : Service} {xs : List Service} :
    Serves host t m x m' → Sitting host t m' xs → Sitting host t m (x :: xs)

structure Service.Comes (x : Service) (y : Served) : Prop where
  passes : x.passes = y.passes
  supplied : x.supplied = y.supplied
  outcomes : x.outcomes = [y.outcome]
  ledger : x.left.ledger = y.ledger

structure Machine.Idle (policy : Policy) (t : Tid) (m : Machine) : Prop where
  frames : m.frames t = []
  tidy : m.shared.Tidy policy

theorem Machine.Idle.start (policy : Policy) (clock interval : Int) (t : Tid) :
    Idle policy t (.start policy clock interval) :=
  ⟨rfl, rfl, .empty, rfl, rfl, rfl⟩

theorem asked_of_mem_signals {call : Option Nat} {evs : List Event} {a : Ask}
    (h : .asked a ∈ signals call evs) : ∃ e ∈ evs, e.what = .asked a := by
  obtain ⟨e, he, hs⟩ := List.mem_filterMap.1 h
  refine ⟨e, he, ?_⟩
  cases hw : e.what with
  | asked a' =>
    simp only [hw, Happening.signal?, Option.some.injEq, Signal.asked.injEq] at hs
    rw [hs]
  | returned o =>
    simp only [hw, Happening.signal?] at hs
    split at hs <;> cases hs
  | _ => simp [hw, Happening.signal?] at hs

namespace Label.Attends

variable {host : Host} {t : Tid} {m m' : Machine} {l : Label} {es : List Event}
  {x y : Machine × List Event}

theorem drives (h : l.Attends host t m) : l.Drives t := by
  cases l with
  | step u => exact h
  | reply u r => exact h.1
  | _ => exact h

theorem step (h : l.Attends host t m) (hs : m.step? t = some x) (hn : m.next? l = some y) :
    l = .step t ∧ y = x := by
  have hmay : mayCall (m.frames t) = false := by
    cases hc : mayCall (m.frames t) with
    | false => rfl
    | true => cases (Machine.step?_of_mayCall hc).symm.trans hs
  cases l with
  | step u =>
    obtain rfl : u = t := h
    exact ⟨rfl, Option.some.inj (hn.symm.trans hs)⟩
  | reply u r =>
    obtain rfl := h.1
    cases (Machine.reply?_eq_none hmay r).symm.trans hn
  | _ => exact h.elim

theorem reply {c : Nat} {p : Point} {rest : List Frame} {a : Ask} (h : l.Attends host t m)
    (hf : m.frames t = ⟨c, p⟩ :: rest) (ha : p.ask? = some a) (hn : m.next? l = some y) :
    ∃ r, l = .reply t r ∧ host.Answers a r := by
  cases l with
  | step u =>
    obtain rfl : u = t := h
    have hmay : mayCall (m.frames u) = true := by simp [hf, mayCall, ha]
    cases (Machine.step?_of_mayCall hmay).symm.trans hn
  | reply u r =>
    obtain ⟨rfl, hr⟩ := h
    exact ⟨r, rfl, hr c p rest a hf ha⟩
  | _ => exact h.elim

theorem frames_ne_nil (h : l.Attends host t m) (hn : m.next? l = some y) : m.frames t ≠ [] := by
  intro hnil
  cases l with
  | step u =>
    obtain rfl : u = t := h
    cases (Machine.step?_of_mayCall (by simp [hnil, mayCall])).symm.trans hn
  | reply u r =>
    obtain rfl := h.1
    simp [Machine.next?, Machine.reply?, hnil] at hn
  | _ => exact h.elim

end Label.Attends

theorem Point.Goes.asking {s s' : Shared} {t : Tid} {call : Nat} {p : Point} {hs : List Happening}
    {course : Course Point} (h : p.Goes s t call hs s' course) {a : Ask} (ha : .asked a ∈ hs) :
    course.next.ask? = some a := by
  cases h with
  | fetch h => cases h <;> simp_all [Course.map, Point.ask?, Fetch.ask?]
  | erase h => cases h <;> simp_all [Course.map, Point.ask?, Erase.ask?]
  | clear h => cases h <;> simp_all [Course.map, Point.ask?, Clear.ask?]
  | sweep h => cases h <;> simp_all [Course.map, Point.ask?, Sweep.ask?]
  | _ => simp at ha

theorem Point.Goes.asked {s s' : Shared} {t : Tid} {call : Nat} {p : Point} {hs : List Happening}
    {course : Course Point} (h : p.Goes s t call hs s' course) {r : Reply} (hr : .replied r ∈ hs) :
    ∃ a, p.ask? = some a := by
  cases h with
  | fetch h => cases h <;> simp_all [Point.ask?, Fetch.ask?]
  | erase h => cases h <;> simp_all [Point.ask?, Erase.ask?]
  | clear h => cases h <;> simp_all [Point.ask?, Clear.ask?]
  | sweep h => cases h <;> simp_all [Point.ask?, Sweep.ask?]
  | _ => simp at hr

theorem Machine.Makes.asking {m m' : Machine} {l : Label} {es : List Event} {t : Tid}
    (h : m.Makes l es m') (hd : l.Drives t) {e : Event} (he : e ∈ es) {a : Ask}
    (ha : e.what = .asked a) : ∃ c p rest, m'.frames t = ⟨c, p⟩ :: rest ∧ p.ask? = some a := by
  cases h with
  | @turn l u c p rest hs s course hu hf hp =>
    obtain rfl : u = t := Option.some.inj (hu.thread.symm.trans hd.thread)
    obtain ⟨x, hx, rfl⟩ := List.mem_map.1 he
    exact ⟨c, course.next, rest, frames_mk_set .., hp.asking (ha ▸ hx)⟩
  | _ => simp_all

theorem Machine.asking_of_step {m m' : Machine} {t : Tid} {call : Option Nat} {a : Ask}
    {evs : List Event} (hs : m.step? t = some (m', evs)) (hsig : signals call evs = [.asked a]) :
    ∃ c p rest, m'.frames t = ⟨c, p⟩ :: rest ∧ p.ask? = some a := by
  obtain ⟨e, he, ha⟩ := asked_of_mem_signals (hsig ▸ List.mem_singleton_self _)
  exact (makes_of_next? (l := .step t) hs).asking rfl he ha

namespace Throughout

variable {host : Host} {t : Tid} {m m₁ m' : Machine} {w : List Move} {evs : List Event}

theorem stepped (hw : Throughout (Label.Attends host t) m w) (hr : Run m w m')
    (hnil : m'.frames t = []) (hs : m.step? t = some (m₁, evs)) :
    ∃ w', w = ⟨.step t, evs⟩ :: w' ∧ Run m₁ w' m' ∧
      Throughout (Label.Attends host t) m₁ w' := by
  cases w with
  | nil =>
    obtain rfl := Run.nil_iff.1 hr
    cases (Machine.step?_of_mayCall (by simp [hnil, mayCall])).symm.trans hs
  | cons mv w =>
    obtain ⟨l, evs'⟩ := mv
    obtain ⟨m₂, hn, hrest⟩ := Run.cons_iff.1 hr
    obtain ⟨rfl, heq⟩ := (hw.at_move (g := []) .start).step hs hn
    obtain ⟨rfl, rfl⟩ := Prod.mk.inj heq
    exact ⟨w, rfl, hrest, hw.after (g := [_]) (Run.start.next hn)⟩

theorem answered {m₀ : Machine} {call : Option Nat} {a : Ask} {evs₀ : List Event}
    (hw : Throughout (Label.Attends host t) m w) (hr : Run m w m') (hnil : m'.frames t = [])
    (hs : m₀.step? t = some (m, evs₀)) (hsig : signals call evs₀ = [.asked a]) :
    ∃ r w' m₁ evs, w = ⟨.reply t r, evs⟩ :: w' ∧ host.Answers a r ∧
      m.reply? t r = some (m₁, evs) ∧ Run m₁ w' m' ∧
      Throughout (Label.Attends host t) m₁ w' := by
  obtain ⟨c, p, rest, hf, ha⟩ := Machine.asking_of_step hs hsig
  cases w with
  | nil =>
    obtain rfl := Run.nil_iff.1 hr
    cases hf.symm.trans hnil
  | cons mv w =>
    obtain ⟨l, evs⟩ := mv
    obtain ⟨m₁, hn, hrest⟩ := Run.cons_iff.1 hr
    obtain ⟨r, rfl, hanswer⟩ := (hw.at_move (g := []) .start).reply hf ha hn
    exact ⟨r, w, m₁, evs, rfl, hanswer, hn, hrest, hw.after (g := [_]) (Run.start.next hn)⟩

end Throughout

/-- By the host's answers the first of these moves take the plan to its end. -/
inductive Carries {α : Type} (host : Host) (t : Tid) (c : Nat) (Q : α → Machine → Prop)
    (ls : List Log) (m : Machine) (plan : Plan α) (w : List Move) : Prop
  | intro {g rest : List Move} {m₁ : Machine} {a : α} : w = g ++ rest → Run m g m₁ → Q a m₁ →
    plan.Yields host m.shared.clock (ls.map .logged ++ signals (some c) (eventsOf g)) a →
    Carries host t c Q ls m plan w

namespace Executes

variable {α : Type} {host : Host} {t : Tid} {c : Nat} {Q : α → Machine → Prop} {ls : List Log}
  {m m' : Machine} {plan : Plan α} {w : List Move}

theorem carries (h : Executes t c Q ls m plan) (hr : Run m w m')
    (hw : Throughout (Label.Attends host t) m w) (hnil : m'.frames t = []) :
    Carries host t c Q ls m plan w := by
  induction h generalizing w with
  | done hq => exact .intro (g := []) rfl .start hq (.done _)
  | clock _ ih =>
    obtain ⟨rfl, hr₁, hq, hy⟩ := ih hr hw
    exact .intro rfl hr₁ hq (.clock hy)
  | log _ ih =>
    obtain ⟨rfl, hr₁, hq, hy⟩ := ih hr hw
    exact .intro rfl hr₁ hq (.log hy)
  | @step ls m m₁ evs plan hs hsig _ ih =>
    have hclock : m₁.shared.clock = m.shared.clock := Machine.clock_next? (l := .step t) hs
    obtain ⟨w, rfl, hr₁, hw₁⟩ := hw.stepped hr hnil hs
    obtain ⟨rfl, hr₂, hq, hy⟩ := ih hr₁ hw₁
    refine .intro (g := ⟨.step t, evs⟩ :: _) rfl (Run.cons_iff.2 ⟨_, hs, hr₂⟩) hq ?_
    rw [hclock] at hy
    simpa [eventsOf, signals_append, hsig] using hy
  | @ask m m₁ evs a rest next shown ls hs hsig hin hreply hshown _ ih =>
    have hclock : m₁.shared.clock = m.shared.clock := Machine.clock_next? (l := .step t) hs
    obtain ⟨w, rfl, hr₁, hw₁⟩ := hw.stepped hr hnil hs
    obtain ⟨r, w, m₂, evs', rfl, hanswer, hs', hr₂, hw₂⟩ := hw₁.answered hr₁ hnil hs hsig
    have hreply := hreply 0 r
    rw [Machine.advance_zero, hs'] at hreply
    obtain ⟨rfl, rfl⟩ := Prod.mk.inj (Option.some.inj hreply)
    obtain ⟨rfl, hr₃, hq, hy⟩ := ih 0 r hr₂ hw₂
    refine .intro (g := ⟨.step t, evs⟩ :: ⟨.reply t r, _⟩ :: _) rfl
      (Run.cons_iff.2 ⟨_, hs, Run.cons_iff.2 ⟨_, hs', hr₃⟩⟩) hq ?_
    have hclock' : (next 0 r).shared.clock = m.shared.clock :=
      (Machine.clock_next? (l := .reply t r) hs').trans hclock
    rw [hclock'] at hy
    simpa [eventsOf, signals_append, hsig, hshown] using Plan.Yields.ask hanswer hy

theorem attended (h : Executes t c Q ls m plan) (host : Host) : ∃ w m₁ a, Run m w m₁ ∧
    Throughout (Label.Attends host t) m w ∧ Q a m₁ := by
  induction h with
  | done hq => exact ⟨[], _, _, .start, .nil, hq⟩
  | clock _ ih => exact ih
  | log _ ih => exact ih
  | step hs _ _ ih =>
    obtain ⟨w, m₁, a, hr, hw, hq⟩ := ih
    exact ⟨⟨.step t, _⟩ :: w, m₁, a, Run.cons_iff.2 ⟨_, hs, hr⟩,
      .cons (l := .step t) hs rfl hw, hq⟩
  | @ask m m' evs q rest next shown ls hs hsig _ hreply _ _ ih =>
    obtain ⟨r, hanswer⟩ := host.exists_answer q
    obtain ⟨w, m₁, a, hr, hw, hq⟩ := ih 0 r
    have hs' := hreply 0 r
    rw [Machine.advance_zero] at hs'
    obtain ⟨c', p, rest', hf, hp⟩ := Machine.asking_of_step hs hsig
    have hattends : (Label.reply t r).Attends host t m' := by
      refine ⟨rfl, fun d p' rest'' q' hf' hq' => ?_⟩
      cases hf.symm.trans hf'
      cases hp.symm.trans hq'
      exact hanswer
    exact ⟨⟨.step t, _⟩ :: ⟨.reply t r, _⟩ :: w, m₁, a,
      Run.cons_iff.2 ⟨_, hs, Run.cons_iff.2 ⟨_, hs', hr⟩⟩,
      .cons (l := .step t) hs rfl (.cons (l := .reply t r) hs' hattends hw), hq⟩

end Executes

def Shared.opening (s : Shared) (now : Int) : List Int :=
  if s.gate.isNone && s.due ≤ now then [now] else []

@[simp] theorem Shared.opening_erase (s : Shared) (k : Key) (now : Int) :
    (s.erase k).opening now = s.opening now := rfl

@[simp] theorem Shared.clock_erase (s : Shared) (k : Key) : (s.erase k).clock = s.clock := rfl

def Point.ahead (s : Shared) (call : Nat) : Point → List Int
  | .fetch (.coerce _ ttl) => if ttl.toInteger.isOk then s.opening s.clock else []
  | .erase (.pop key) =>
    if s.store.isEmpty || (key.toKey call).isOk then s.opening s.clock else []
  | .erase (.discard _) | .erase (.disposal _) | .erase .sweep => s.opening s.clock
  | .sweep .begin => s.opening s.clock
  | .sweep (.due now) | .sweep (.contend now) => s.opening now
  | .sweep (.recheck now) => if s.due ≤ now then [now] else []
  | _ => []

def Machine.ahead (m : Machine) (t : Tid) : List Int :=
  match m.frames t with
  | [] => []
  | f :: _ => f.point.ahead m.shared f.call

inductive Solo : List Frame → Prop
  | idle : Solo []
  | call (c : Nat) (p : Point) : Solo [⟨c, p⟩]
  | swept {d c : Nat} {q p : Point} : Op.sweep.admits q = true → p.awaitsSweep = true →
    Solo [⟨d, q⟩, ⟨c, p⟩]

namespace Point

variable {s s' : Shared} {t : Tid} {call : Nat} {p p' : Point} {hs : List Happening}
  {course : Course Point}

theorem ahead_of_awaitsSweep (h : p.awaitsSweep = true) : p.ahead s call = [] := by
  cases p with
  | fetch f =>
    cases f with
    | lookup => rfl
    | _ => cases h
  | erase e =>
    cases e with
    | finish => rfl
    | _ => cases h
  | _ => cases h

theorem Goes.ahead (h : p.Goes s t call hs s' course) (hc : ∀ p', course ≠ .gated p')
    (hok : ∀ f, hs ≠ [.replied (.error f)]) :
    hs.filterMap (·.passed?) ++ course.next.ahead s' call = p.ahead s call := by
  cases h with
  | fetch h =>
    cases h <;> simp_all [Course.map, Point.ahead, Happening.passed?, Except.isOk, Except.toBool]
  | erase h =>
    cases h <;> simp_all [Course.map, Point.ahead, Happening.passed?, Except.isOk, Except.toBool]
  | clear h => cases h <;> simp_all [Course.map, Point.ahead, Happening.passed?]
  | sweep h =>
    cases h <;> simp_all [Course.map, Point.ahead, Happening.passed?, Shared.opening]
  | _ => rfl

theorem Goes.ahead_gated (h : p.Goes s t call hs s' (.gated p')) :
    p.ahead s call = s.opening s.clock := by
  generalize hc : Course.gated p' = course at h
  cases h with
  | fetch h => cases h <;> cases hc; simp_all [Point.ahead, Except.isOk, Except.toBool]
  | erase h => cases h <;> cases hc; rfl
  | clear h => cases h <;> cases hc
  | sweep h => cases h <;> cases hc
  | _ => cases hc

end Point

namespace Machine

variable {m m' : Machine} {l : Label} {t : Tid} {es : List Event}

theorem ahead_of_frames {c : Nat} {p : Point} {rest : List Frame}
    (hf : m.frames t = ⟨c, p⟩ :: rest) : m.ahead t = p.ahead m.shared c := by
  simp [ahead, hf]

theorem Makes.ahead (h : m.Makes l es m') (hd : l.Drives t) (hs : Solo (m.frames t))
    (hok : ∀ c f, es ≠ [⟨t, c, .replied (.error f)⟩]) : Solo (m'.frames t) ∧
      es.filterMap (·.what.passed?) ++ m'.ahead t = m.ahead t := by
  have own : ∀ {u}, l.Drives u → u = t := fun hu =>
    Option.some.inj (hu.thread.symm.trans hd.thread)
  cases h with
  | advance | call => exact hd.elim
  | @turn l u c p rest hs s course hu hf hp hc =>
    obtain rfl := own hu
    have hpoint := hp.ahead hc (fun f hf => hok c f (by simp [hf]))
    refine ⟨?_, ?_⟩
    · rw [frames_mk_set]
      rw [hf] at hs
      cases hs with
      | call => exact .call ..
      | swept hq hw => exact .swept (hp.admits hq) hw
    · rw [ahead_of_frames hf, ahead_of_frames (frames_mk_set ..), ← hpoint]
      simp [List.filterMap_map]
  | @gate l u c p p' rest hu hf hp =>
    obtain rfl := own hu
    refine ⟨?_, ?_⟩
    · rw [push, frames_mk_set]
      rw [hf] at hs
      cases hs with
      | call => exact .swept rfl hp.awaitsSweep
      | swept hq =>
        -- a sweep has no sweep of its own
        have hadmits : Op.sweep.admits p' = true := hp.admits hq
        have hwaits := hp.awaitsSweep
        cases p' <;> simp [Op.admits, Point.awaitsSweep] at hadmits hwaits
    · rw [ahead_of_frames hf, hp.ahead_gated, push, ahead_of_frames (frames_mk_set ..)]
      rfl
  | @leave u c o rest hf =>
    obtain rfl : u = t := hd
    rw [frames_setFrames, ahead_of_frames hf]
    rw [hf] at hs
    cases hs with
    | call =>
      have hnil : ahead (m.setFrames u []) u = [] := by simp [ahead]
      exact ⟨.idle, hnil⟩
    | swept _ hw =>
      refine ⟨.call .., ?_⟩
      rw [ahead_of_frames (frames_setFrames ..)]
      exact Point.ahead_of_awaitsSweep hw
  | @fail u c f below others hf =>
    obtain rfl : u = t := hd
    rw [frames_setFrames, ahead_of_frames hf, ahead_of_frames (frames_setFrames ..)]
    rw [hf] at hs
    cases hs with
    | swept => exact ⟨.call .., rfl⟩

end Machine

theorem Label.Attends.ok {host : Host} {t : Tid} {m m' : Machine} {l : Label} {es : List Event}
    (h : l.Attends host t m) (hn : m.next? l = some (m', es)) (c : Nat) (f : Fault) :
    es ≠ [⟨t, c, .replied (.error f)⟩] := by
  intro hes
  cases Machine.makes_of_next? hn with
  | @turn l u d p rest hs s course hu hf hp =>
    obtain rfl : u = t := Option.some.inj (hu.thread.symm.trans h.drives.thread)
    have hmem : .replied (.error f) ∈ hs := by
      obtain ⟨x, hx, heq⟩ := List.mem_map.1 (hes.symm ▸ List.mem_singleton_self _)
      cases heq
      exact hx
    obtain ⟨a, ha⟩ := hp.asked hmem
    obtain ⟨r, rfl, hanswer⟩ := h.reply hf ha hn
    simp only [Machine.next?, Machine.reply?, hf, Option.map_eq_some_iff] at hn
    obtain ⟨turn, -, hturn⟩ := hn
    have hevs := (congrArg Prod.snd hturn).trans hes
    simp only [List.cons.injEq, Event.mk.injEq, Happening.replied.injEq] at hevs
    rw [hevs.1.2.2] at hanswer
    cases hanswer
  | _ => simp at hes

theorem Run.ahead {host : Host} {t : Tid} {m m' : Machine} {w : List Move} (hr : Run m w m')
    (hw : Throughout (Label.Attends host t) m w) (hs : Solo (m.frames t)) :
    Solo (m'.frames t) ∧ (eventsOf w).filterMap (·.what.passed?) ++ m'.ahead t = m.ahead t := by
  induction hr with
  | start => exact ⟨hs, rfl⟩
  | @next w m₁ m₂ l es hr hl ih =>
    obtain ⟨hs₁, hahead⟩ := ih hw.init
    have hattends := hw.at_move hr
    obtain ⟨hs₂, hstep⟩ :=
      (Machine.makes_of_next? hl).ahead hattends.drives hs₁ (hattends.ok hl)
    refine ⟨hs₂, ?_⟩
    rw [← hahead, ← hstep]
    simp [eventsOf]

theorem Shared.Tidy.opening {policy : Policy} {s : Shared} (ht : s.Tidy policy) (now : Int) :
    s.opening now = s.ledger.passes now := by
  simp only [Shared.opening, ht.gate, Ledger.passes, Shared.ledger]
  by_cases hdue : now < s.due
  · simp [hdue, Int.not_le.2 hdue]
  · simp [hdue, Int.not_lt.1 hdue]

theorem Shared.Tidy.ahead_start {policy : Policy} {s : Shared} (ht : s.Tidy policy) (host : Host)
    (call : Nat) (op : Op) :
    op.start.ahead s call = (s.ledger.serve host policy s.clock call op).passes := by
  cases op with
  | fetch key ttl =>
    simp only [Op.start, Point.ahead, Ledger.serve, Ledger.passes_fetched, ht.opening]
  | erase key =>
    have hempty : s.ledger.slots.isEmpty = s.store.isEmpty := by
      simp [Shared.ledger, Store.chart, Store.isEmpty]
    simp only [Op.start, Point.ahead, Ledger.serve, Ledger.passes_dropped, ht.opening, hempty]
  | sweep => exact ht.opening s.clock
  | setInterval ns =>
    simp only [Op.start, Point.ahead, Ledger.serve]
    split <;> rfl
  | _ => rfl

structure Outset (policy : Policy) (t : Tid) (m : Machine) (ns : Int) (op : Op) (evs : List Event)
    (m₁ : Machine) : Prop where
  frames : m₁.frames t = [⟨m.shared.fresh, op.start⟩]
  tidy : m₁.shared.Tidy policy
  ledger : m₁.shared.ledger = m.shared.ledger
  clock : m₁.shared.clock = m.shared.clock + ns
  fresh : m.shared.fresh < m₁.shared.fresh
  events : evs = [⟨t, m.shared.fresh, .called op⟩]

theorem Outset.of_call? {policy : Policy} {t : Tid} {m m₁ : Machine} {ns : Int} {op : Op}
    {evs : List Event} (hi : m.Idle policy t)
    (hcall : (m.advance ns).call? t op = some (m₁, evs)) : Outset policy t m ns op evs m₁ := by
  obtain ⟨-, hpush⟩ := Option.ite_none_right_eq_some.1 hcall
  obtain ⟨rfl, rfl⟩ := Prod.mk.inj (Option.some.inj hpush)
  constructor
  case frames =>
    rw [show (m.advance ns).frames t = [] from hi.frames]
    exact Machine.frames_mk_set ..
  case tidy =>
    exact ⟨hi.tidy.policy, hi.tidy.distinct, hi.tidy.gate, hi.tidy.pending, hi.tidy.held⟩
  case fresh => exact Nat.lt_succ_self _
  all_goals rfl

theorem Ended.last {host : Host} {policy : Policy} {t : Tid} {c : Nat} {o : Outcome} {l : Ledger}
    {m m' : Machine} {w : List Move} (h : Ended policy t c [] (o, l) m) (hr : Run m w m')
    (hw : Throughout (Label.Attends host t) m w) (hnil : m'.frames t = []) :
    w = [⟨.step t, [⟨t, c, .returned o⟩]⟩] ∧ m'.shared = m.shared := by
  obtain ⟨w, rfl, hr₁, hw₁⟩ := hw.stepped hr hnil h.step?
  cases w with
  | nil =>
    obtain rfl := Run.nil_iff.1 hr₁
    exact ⟨rfl, rfl⟩
  | cons mv w =>
    obtain ⟨m₂, hn, -⟩ := Run.cons_iff.1 hr₁
    exact absurd (Machine.frames_setFrames ..)
      ((hw₁.at_move (g := []) .start).frames_ne_nil hn)

theorem signals_returned {t : Tid} {c : Nat} {op : Op} {o : Outcome} {evs : List Event}
    (he : evs = [⟨t, c, .called op⟩]) (w : List Move) :
    signals (some c) (evs ++ eventsOf (w ++ [⟨.step t, [⟨t, c, .returned o⟩]⟩])) =
      signals (some c) (eventsOf w) ++ [.returned o] := by
  simp [he, eventsOf, signals, Happening.signal?]

theorem supplied_concat (ss : List Signal) (o : Outcome) :
    supplied (ss ++ [.returned o]) = supplied ss := by
  simp [supplied, Signal.supplied?]

namespace Serves

variable {host : Host} {policy : Policy} {t : Tid} {m m' : Machine} {x : Service}

theorem comes (h : Serves host t m x m') (hi : m.Idle policy t) :
    x.Comes (m.shared.ledger.serve host policy x.clock x.call x.op) ∧
      m'.Idle policy t ∧ m'.shared = x.left := by
  cases h with
  | @intro ns op evs m₁ m' w hcall hr hw hidle =>
    have hb := Outset.of_call? hi hcall
    have hahead := (hr.ahead hw (hb.frames ▸ .call ..)).2
    have hperform := Executes.perform hb.frames hb.tidy hb.fresh
    rw [hb.ledger] at hperform
    obtain @⟨w₁, w₂, m₂, ⟨o, l⟩, rfl, hr₁, hq, hy⟩ := hperform.carries hr hw hidle
    obtain ⟨m₂', hr₁', hr₂⟩ := hr.split
    obtain rfl := hr₁.unique hr₁'
    obtain ⟨rfl, hshared⟩ := hq.last hr₂ (hw.after hr₁) hidle
    rw [hb.clock] at hy
    have hseen := hy.perform
    have hsignals := signals_returned (o := o) hb.events w₁
    refine ⟨?_, ⟨hidle, hshared ▸ hq.tidy⟩, rfl⟩
    constructor
    case passes =>
      have hdone : m'.ahead t = [] := by simp [Machine.ahead, hidle]
      rw [hdone, List.append_nil, Machine.ahead_of_frames hb.frames, hb.tidy.ahead_start host,
        hb.ledger, hb.clock] at hahead
      simpa [Service.passes, hb.events, Happening.passed?] using hahead
    case supplied =>
      rw [Service.supplied, hsignals, supplied_concat]
      exact hseen.supplied
    case outcomes =>
      have hreturned := hy.returned
      rw [List.map_nil, List.nil_append] at hreturned
      rw [Service.outcomes, hsignals, List.filterMap_append, hreturned, hseen.outcome]
      rfl
    case ledger => exact hshared ▸ hq.ledger.trans hseen.ledger

theorem exists_of_idle (host : Host) (hi : m.Idle policy t) (d : Demand) :
    ∃ x m', Serves host t m x m' ∧ x.toDemand = d := by
  have hmay : mayCall ((m.advance (d.clock - m.shared.clock)).frames t) = true := by
    rw [show (m.advance (d.clock - m.shared.clock)).frames t = [] from hi.frames]
    rfl
  have hcall : (m.advance (d.clock - m.shared.clock)).call? t d.op = some _ := if_pos hmay
  have hb := Outset.of_call? hi hcall
  obtain ⟨w, m₂, ⟨o, l⟩, hr, hw, hq⟩ :=
    (Executes.perform hb.frames hb.tidy hb.fresh).attended host
  have hlast : m₂.next? (.step t) = some (m₂.setFrames t [], _) := hq.step?
  have hserves := Serves.intro hcall (hr.next hlast)
    (hw.append hr (.cons (l := .step t) hlast rfl .nil)) (Machine.frames_setFrames ..)
  refine ⟨_, _, hserves, ?_⟩
  rw [show m.shared.clock + (d.clock - m.shared.clock) = d.clock by omega]

end Serves

theorem Sitting.exists_of_idle (host : Host) {policy : Policy} {t : Tid} {m : Machine}
    (hi : m.Idle policy t) (ds : List Demand) :
    ∃ xs, Sitting host t m xs ∧ xs.map (·.toDemand) = ds := by
  induction ds generalizing m with
  | nil => exact ⟨[], .nil m, rfl⟩
  | cons d ds ih =>
    obtain ⟨x, m', hx, rfl⟩ := Serves.exists_of_idle host hi d
    obtain ⟨xs, hxs, rfl⟩ := ih (hx.comes hi).2.1
    exact ⟨x :: xs, .cons hx hxs, rfl⟩

end Lapse
