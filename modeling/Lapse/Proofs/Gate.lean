import Lapse.Proofs.Countdown
import Lapse.Proofs.Disposal
import Lapse.Proofs.Waiting

/-!
The gate. Where threads take turns, and give way only inside callbacks, at the end of their calls
or when they have to wait, the clock's reading alone decides whether a sweep makes a pass.
-/

namespace Lapse

theorem Point.step_eq_none {p : Point} (h : p.ask?.isSome = true) {s : Shared} {t : Tid}
    {call : Nat} : p.step s t call = none := by
  cases p with
  | fetch f => cases f <;> first | rfl | cases h
  | erase e => cases e <;> first | rfl | cases h
  | clear e => cases e <;> first | rfl | cases h
  | sweep w => cases w <;> first | rfl | cases h
  | _ => cases h

theorem Point.reply_eq_none {p : Point} (hp : p.ask? = none) (s : Shared) (r : Reply) :
    p.reply s r = none := by
  cases p with
  | fetch f =>
    cases f with
    | supply => cases hp
    | _ => rfl
  | erase e =>
    cases e with
    | disposal => cases hp
    | _ => rfl
  | clear e =>
    cases e with
    | disposal => cases hp
    | _ => rfl
  | sweep w =>
    cases w with
    | approval | disposal => cases hp
    | _ => rfl
  | _ => rfl

namespace Machine

/-- The thread has no call in progress, is inside a callback, or has to wait. -/
def Settled (m : Machine) (t : Tid) : Prop := mayCall (m.frames t) = true ∨ m.step? t = none

def InTurn (m : Machine) (l : Label) : Prop :=
  ∀ t, l.thread? = some t → ∀ u, u ≠ t → m.Settled u

theorem step?_of_mayCall {m : Machine} {t : Tid} (h : mayCall (m.frames t) = true) :
    m.step? t = none := by
  cases hf : m.frames t with
  | nil => simp [step?, hf]
  | cons f rest =>
    obtain ⟨c, p⟩ := f
    have ha : p.ask?.isSome = true := by simpa [hf, mayCall] using h
    have hd : ∀ o, p ≠ .done o := by
      rintro o rfl
      cases ha
    rw [step?_of_frames hf hd, Point.step_eq_none ha, Option.map_none]

theorem reply?_eq_none {m : Machine} {t : Tid} (h : mayCall (m.frames t) = false) (r : Reply) :
    m.reply? t r = none := by
  cases hf : m.frames t with
  | nil => simp [reply?, hf]
  | cons f rest =>
    have hask : f.point.ask? = none := by simpa [hf, mayCall] using h
    simp [reply?, hf, Point.reply_eq_none hask]

end Machine

structure Ladder (t : Tid) (e : Event) (Q : Nat → Machine → Prop) : Prop where
  busy : ∀ {n m}, Q n m → mayCall (m.frames t) = false
  advance : ∀ {n m}, Q n m → ∀ ns, Q n (m.advance ns)
  step : ∀ {n m}, Q (n + 1) m → ∃ m', m.step? t = some (m', []) ∧ Q n m'
  last : ∀ {m}, Q 0 m → ∃ m', m.step? t = some (m', [e])

/-- By itself the thread comes to show the event; and if the run goes on like this, then whatever
is shown next is the event. -/
structure Leads (m : Machine) (t : Tid) (e : Event) (g : List Move) : Prop where
  alone : ∃ n w m', Run m w m' ∧ w.map (·.label) = .replicate n (.step t) ∧ eventsOf w = [e]
  next : ∀ e', (eventsOf g).head? = some e' → e' = e

namespace Ladder

variable {t : Tid} {e : Event} {Q : Nat → Machine → Prop} {n : Nat} {m m' : Machine} {g : List Move}

theorem not_settled (hl : Ladder t e Q) (hq : Q n m) : ¬m.Settled t := by
  rintro (hc | hs)
  · simp [hl.busy hq] at hc
  · cases n with
    | zero =>
      obtain ⟨m', h⟩ := hl.last hq
      cases hs.symm.trans h
    | succ n =>
      obtain ⟨m', h, -⟩ := hl.step hq
      cases hs.symm.trans h

theorem move (hl : Ladder t e Q) (hq : Q n m) {l : Label} (ho : m.InTurn l) {es : List Event}
    (hm : m.next? l = some (m', es)) : es = [e] ∨ es = [] ∧ ∃ n', Q n' m' := by
  have own : ∀ {u}, l.thread? = some u → u = t := by
    intro u hu
    by_contra hne
    exact hl.not_settled hq (ho u hu t (Ne.symm hne))
  cases l with
  | advance ns =>
    cases hm
    exact .inr ⟨rfl, n, hl.advance hq ns⟩
  | call u op =>
    obtain rfl := own rfl
    simp [Machine.next?, Machine.call?, hl.busy hq] at hm
  | reply u r =>
    obtain rfl := own rfl
    simp [Machine.next?, Machine.reply?_eq_none (hl.busy hq)] at hm
  | step u =>
    obtain rfl := own rfl
    cases n with
    | zero =>
      obtain ⟨m₁, h⟩ := hl.last hq
      cases hm.symm.trans h
      exact .inl rfl
    | succ n =>
      obtain ⟨m₁, h, hq⟩ := hl.step hq
      cases hm.symm.trans h
      exact .inr ⟨rfl, n, hq⟩

theorem leads (hl : Ladder t e Q) (hq : Q n m) (ho : Throughout Machine.InTurn m g)
    (hr : Run m g m') : Leads m t e g where
  alone := by
    clear ho hr
    induction n generalizing m with
    | zero =>
      obtain ⟨m₁, h⟩ := hl.last hq
      exact ⟨1, [⟨.step t, [e]⟩], m₁, .next .start h, rfl, rfl⟩
    | succ n ih =>
      obtain ⟨m₁, h, hq⟩ := hl.step hq
      obtain ⟨k, w, m₂, hw, hlabels, hes⟩ := ih hq
      refine ⟨k + 1, ⟨.step t, []⟩ :: w, m₂, Run.cons_iff.2 ⟨m₁, h, hw⟩, ?_, by simpa [eventsOf]⟩
      simp [hlabels, List.replicate_succ]
  next := by
    induction g generalizing m n with
    | nil => exact fun e' he => by cases he
    | cons mv g ih =>
      obtain ⟨m₁, hm, hr⟩ := Run.cons_iff.1 hr
      intro e' he
      have hfirst := ho.at_move (g := []) .start
      obtain hes | ⟨hes, n', hq⟩ := hl.move hq hfirst hm
      · simpa [eventsOf, hes, eq_comm] using he
      · refine ih hq (ho.after (g := [mv]) (Run.cons_iff.2 ⟨m₁, hm, .start⟩)) hr e' ?_
        simpa [eventsOf, hes] using he

end Ladder

namespace Machine

/-- Where a call stands that is bound for the gate, and what it is about to show: its gated sweep,
or what it does before that. -/
inductive Heads (m : Machine) (t : Tid) : Event → Prop
  | fetch {c : Nat} {key ttl : Value} {ns : Int} {rest : List Frame} :
    m.frames t = ⟨c, .fetch (.coerce key ttl)⟩ :: rest → ttl.toInteger = .ok ns →
    Heads m t ⟨t, m.shared.fresh, .called .sweep⟩
  | missed {c : Nat} {key : Value} {k : Key} {rest : List Frame} :
    m.frames t = ⟨c, .erase (.pop key)⟩ :: rest → key.toKey c = .ok k →
    m.shared.store.find? k = none → Heads m t ⟨t, m.shared.fresh, .called .sweep⟩
  | popped {c : Nat} {key : Value} {k : Key} {r : Record} {rest : List Frame} :
    m.frames t = ⟨c, .erase (.pop key)⟩ :: rest → key.toKey c = .ok k →
    m.shared.store.find? k = some r → Heads m t ⟨t, c, .deleted k r⟩
  | disposes {c : Nat} {r : Record} {rest : List Frame} :
    m.frames t = ⟨c, .erase (.discard r)⟩ :: rest → m.shared.policy.disposes = true →
    Heads m t ⟨t, c, .asked (.dispose r.value)⟩
  | dropped {c : Nat} {r : Record} {rest : List Frame} :
    m.frames t = ⟨c, .erase (.discard r)⟩ :: rest → m.shared.policy.disposes = false →
    Heads m t ⟨t, m.shared.fresh, .called .sweep⟩
  | disposed {c : Nat} {rest : List Frame} :
    m.frames t = ⟨c, .erase .sweep⟩ :: rest → Heads m t ⟨t, m.shared.fresh, .called .sweep⟩

inductive Bound (t : Tid) (a : Nat) : Nat → Machine → Prop
  | fetch {m : Machine} {c : Nat} {key ttl : Value} {ns : Int} {rest : List Frame} :
    m.frames t = ⟨c, .fetch (.coerce key ttl)⟩ :: rest → ttl.toInteger = .ok ns →
    m.shared.fresh = a → Bound t a 0 m
  | erase {m : Machine} {c : Nat} {rest : List Frame} :
    m.frames t = ⟨c, .erase .sweep⟩ :: rest → m.shared.fresh = a → Bound t a 0 m
  | pop {m : Machine} {c : Nat} {key : Value} {k : Key} {rest : List Frame} :
    m.frames t = ⟨c, .erase (.pop key)⟩ :: rest → key.toKey c = .ok k →
    m.shared.store.find? k = none → m.shared.fresh = a → Bound t a 1 m
  | discard {m : Machine} {c : Nat} {r : Record} {rest : List Frame} :
    m.frames t = ⟨c, .erase (.discard r)⟩ :: rest → m.shared.policy.disposes = false →
    m.shared.fresh = a → Bound t a 1 m

theorem ladder_bound (t : Tid) (a : Nat) : Ladder t ⟨t, a, .called .sweep⟩ (Bound t a) where
  busy h := by cases h <;> simp_all [mayCall, Point.ask?, Fetch.ask?, Erase.ask?]
  advance h ns := by
    cases h with
    | fetch hf httl ha => exact .fetch hf httl ha
    | erase hf ha => exact .erase hf ha
    | pop hf hk hr ha => exact .pop hf hk hr ha
    | discard hf hd ha => exact .discard hf hd ha
  step {_ m} h := by
    cases h with
    | @pop _ c key k rest hf hk hr ha =>
      refine ⟨⟨m.shared, m.calls.set t (⟨c, .erase .sweep⟩ :: rest)⟩, ?_,
        .erase (frames_mk_set ..) ha⟩
      rw [step?_of_frames hf (by simp), Point.step, Erase.step]
      cases m.shared.store.isEmpty <;> simp [hk, hr] <;> rfl
    | @discard _ c r rest hf hd ha =>
      refine ⟨⟨m.shared, m.calls.set t (⟨c, .erase .sweep⟩ :: rest)⟩, ?_,
        .erase (frames_mk_set ..) ha⟩
      rw [step?_of_frames hf (by simp), Point.step, Erase.step, hd]
      rfl
  last h := by
    cases h with
    | fetch hf httl ha =>
      rw [step?_of_frames hf (by simp), Point.step, Fetch.step, httl, ← ha]
      exact ⟨_, rfl⟩
    | erase hf ha =>
      rw [step?_of_frames hf (by simp), Point.step, Erase.step, ← ha]
      exact ⟨_, rfl⟩

inductive Pops (t : Tid) (c : Nat) (k : Key) (r : Record) : Nat → Machine → Prop
  | pop {m : Machine} {key : Value} {rest : List Frame} :
    m.frames t = ⟨c, .erase (.pop key)⟩ :: rest → key.toKey c = .ok k →
    m.shared.store.find? k = some r → Pops t c k r 0 m

theorem ladder_pops (t : Tid) (c : Nat) (k : Key) (r : Record) :
    Ladder t ⟨t, c, .deleted k r⟩ (Pops t c k r) where
  busy h := by
    obtain ⟨hf, -, -⟩ := h
    simp [hf, mayCall, Point.ask?, Erase.ask?]
  advance h ns := by
    obtain ⟨hf, hk, hr⟩ := h
    exact .pop hf hk hr
  step h := by cases h
  last {m} h := by
    obtain ⟨hf, hk, hr⟩ := h
    have hne : m.shared.store.isEmpty = false := by
      cases he : m.shared.store.isEmpty with
      | false => rfl
      | true =>
        have : m.shared.store.entries = [] := List.isEmpty_iff.1 he
        simp [Store.find?, this] at hr
    rw [step?_of_frames hf (by simp), Point.step, Erase.step, hne]
    simp only [Bool.false_eq_true, if_false, hk, hr]
    exact ⟨_, rfl⟩

inductive Discards (t : Tid) (c : Nat) (r : Record) : Nat → Machine → Prop
  | discard {m : Machine} {rest : List Frame} :
    m.frames t = ⟨c, .erase (.discard r)⟩ :: rest → m.shared.policy.disposes = true →
    Discards t c r 0 m

theorem ladder_discards (t : Tid) (c : Nat) (r : Record) :
    Ladder t ⟨t, c, .asked (.dispose r.value)⟩ (Discards t c r) where
  busy h := by
    obtain ⟨hf, -⟩ := h
    simp [hf, mayCall, Point.ask?, Erase.ask?]
  advance h ns := by
    obtain ⟨hf, hd⟩ := h
    exact .discard hf hd
  step h := by cases h
  last h := by
    obtain ⟨hf, hd⟩ := h
    rw [step?_of_frames hf (by simp), Point.step, Erase.step, hd]
    exact ⟨_, rfl⟩

inductive Ripe (t : Tid) (c : Nat) (now : Int) : Nat → Machine → Prop
  | due {m : Machine} {rest : List Frame} : m.frames t = ⟨c, .sweep (.due now)⟩ :: rest →
    m.shared.due ≤ now → m.shared.gate = none → Ripe t c now 2 m
  | contend {m : Machine} {rest : List Frame} : m.frames t = ⟨c, .sweep (.contend now)⟩ :: rest →
    m.shared.due ≤ now → m.shared.gate = none → Ripe t c now 1 m
  | recheck {m : Machine} {rest : List Frame} : m.frames t = ⟨c, .sweep (.recheck now)⟩ :: rest →
    m.shared.due ≤ now → Ripe t c now 0 m

theorem ladder_ripe (t : Tid) (c : Nat) (now : Int) :
    Ladder t ⟨t, c, .passed now⟩ (Ripe t c now) where
  busy h := by cases h <;> simp_all [mayCall, Point.ask?, Sweep.ask?]
  advance h ns := by
    cases h with
    | due hf hd hg => exact .due hf hd hg
    | contend hf hd hg => exact .contend hf hd hg
    | recheck hf hd => exact .recheck hf hd
  step {_ m} h := by
    cases h with
    | @due _ rest hf hd hg =>
      refine ⟨⟨m.shared, m.calls.set t (⟨c, .sweep (.contend now)⟩ :: rest)⟩, ?_,
        .contend (frames_mk_set ..) hd hg⟩
      rw [step?_of_frames hf (by simp), Point.step, Sweep.step, if_neg (Int.not_lt.2 hd)]
      rfl
    | @contend _ rest hf hd hg =>
      refine ⟨⟨{ m.shared with gate := some t },
        m.calls.set t (⟨c, .sweep (.recheck now)⟩ :: rest)⟩, ?_, .recheck (frames_mk_set ..) hd⟩
      rw [step?_of_frames hf (by simp), Point.step, Sweep.step, hg]
      rfl
  last h := by
    cases h with
    | recheck hf hd =>
      rw [step?_of_frames hf (by simp), Point.step, Sweep.step, if_neg (Int.not_lt.2 hd)]
      exact ⟨_, rfl⟩

inductive Early (t : Tid) (c : Nat) (now : Int) : Nat → Machine → Prop
  | due {m : Machine} {rest : List Frame} : m.frames t = ⟨c, .sweep (.due now)⟩ :: rest →
    now < m.shared.due → Early t c now 1 m
  | done {m : Machine} {rest : List Frame} :
    m.frames t = ⟨c, .done (.ok (.count 0))⟩ :: rest → Early t c now 0 m

theorem ladder_early (t : Tid) (c : Nat) (now : Int) :
    Ladder t ⟨t, c, .returned (.ok (.count 0))⟩ (Early t c now) where
  busy h := by cases h <;> simp_all [mayCall, Point.ask?, Sweep.ask?]
  advance h ns := by
    cases h with
    | due hf hd => exact .due hf hd
    | done hf => exact .done hf
  step {_ m} h := by
    cases h with
    | @due _ rest hf hd =>
      refine ⟨⟨m.shared, m.calls.set t (⟨c, .done (.ok (.count 0))⟩ :: rest)⟩, ?_,
        .done (frames_mk_set ..)⟩
      rw [step?_of_frames hf (by simp), Point.step, Sweep.step, if_pos hd]
      rfl
  last h := by
    cases h with
    | done hf =>
      simp only [step?, hf]
      exact ⟨_, rfl⟩

variable {m m' : Machine} {t : Tid} {c : Nat} {p : Point} {rest : List Frame} {l : Label}
  {es : List Event} {policy : Policy} {clock interval : Int}

theorem Heads.leads {e : Event} {g : List Move} (hh : m.Heads t e) (ho : Throughout InTurn m g)
    (hr : Run m g m') : Leads m t e g := by
  cases hh with
  | fetch hf httl => exact (ladder_bound t _).leads (.fetch hf httl rfl) ho hr
  | missed hf hk hn => exact (ladder_bound t _).leads (.pop hf hk hn rfl) ho hr
  | popped hf hk hs => exact (ladder_pops t _ _ _).leads (.pop hf hk hs) ho hr
  | disposes hf hd => exact (ladder_discards t _ _).leads (.discard hf hd) ho hr
  | dropped hf hd => exact (ladder_bound t _).leads (.discard hf hd rfl) ho hr
  | disposed hf => exact (ladder_bound t _).leads (.erase hf rfl) ho hr

theorem Passable.gate_eq_none (hg : m.Passable) (ho : m.InTurn (.step t))
    (hf : m.frames t = ⟨c, p⟩ :: rest) (hp : ∀ now, p ≠ .sweep (.recheck now)) :
    m.shared.gate = none := by
  cases hu : m.shared.gate with
  | none => rfl
  | some u =>
    obtain ⟨d, now, rest', hf'⟩ := hg hu
    by_cases hut : u = t
    · subst hut
      cases hf.symm.trans hf'
      exact absurd rfl (hp now)
    · obtain hc | hs := ho t rfl u hut
      · simp [hf', mayCall, Point.ask?, Sweep.ask?] at hc
      · rw [step?_of_frames hf' (by simp), Option.map_eq_none_iff, Point.step,
          Option.map_eq_none_iff, Sweep.step] at hs
        split at hs <;> cases hs

theorem leads_of_reading {g : List Move} (hg : m.Passable) (ho : m.InTurn (.step t))
    (hf : m.frames t = ⟨c, .sweep .begin⟩ :: rest) (hl : m.next? (.step t) = some (m', es))
    {m'' : Machine} (ho' : Throughout InTurn m' g) (hr : Run m' g m'') :
    Leads m' t ⟨t, c, if m.shared.due ≤ m.shared.clock then .passed m.shared.clock
      else .returned (.ok (.count 0))⟩ g := by
  have hgate := hg.gate_eq_none ho hf (by simp)
  have hm' : m' = ⟨m.shared, m.calls.set t (⟨c, .sweep (.due m.shared.clock)⟩ :: rest)⟩ := by
    rw [next?, step?_of_frames hf (by simp), Point.step, Sweep.step] at hl
    cases hl
    rfl
  subst hm'
  split
  · rename_i hdue
    exact (ladder_ripe t c _).leads (.due (frames_mk_set ..) hdue hgate) ho' hr
  · rename_i hdue
    exact (ladder_early t c _).leads (.due (frames_mk_set ..) (Int.not_le.1 hdue)) ho' hr

theorem Makes.called (h : m.Makes l es m') {op : Op} (he : ⟨t, c, .called op⟩ ∈ es) :
    ∃ rest, m'.frames t = ⟨c, op.start⟩ :: rest := by
  cases h with
  | advance ns => simp at he
  | call _ =>
    cases List.mem_singleton.1 he
    exact ⟨_, frames_mk_set ..⟩
  | turn _ _ hp _ =>
    obtain ⟨x, hx, hw⟩ := List.mem_map.1 he
    cases hw
    exact absurd hx (hp.inner.1 op)
  | gate _ _ _ =>
    cases List.mem_singleton.1 he
    exact ⟨_, frames_mk_set ..⟩
  | leave _ _ => simp at he
  | fail _ _ => simp at he

theorem Story.op_of_setInterval {op : Op} {ts : List Timed} {ns : Value}
    (h : Story policy t c op ts (.setInterval ns)) : op = .setInterval ns := by
  generalize hp : Point.setInterval ns = p at h
  induction h with
  | call =>
    cases op <;> cases hp
    rfl
  | turn _ _ _ hgoes =>
    cases hgoes with
    | @fetch _ _ _ c _ => cases c <;> cases hp
    | @erase _ _ _ c _ => cases c <;> cases hp
    | @clear _ _ _ c _ => cases c <;> cases hp
    | @sweep _ _ _ c _ => cases c <;> cases hp
    | _ => cases hp
  | fail => cases hp
  | others _ _ ih => exact ih hp

theorem Point.Goes.setInterval_of_restart {s s' : Shared} {hs : List Happening}
    {course : Course Point} (h : p.Goes s t c hs s' course) (hn : course.next = .restart) :
    ∃ ns n, p = .setInterval ns ∧ ns.toInteger = .ok n ∧ s'.interval = n := by
  cases h with
  | @fetch _ _ _ c _ => cases c <;> cases hn
  | @erase _ _ _ c _ => cases c <;> cases hn
  | @clear _ _ _ c _ => cases c <;> cases hn
  | @sweep _ _ _ c _ => cases c <;> cases hn
  | set h => exact ⟨_, _, rfl, h, rfl⟩
  | _ => cases hn

def Exact (ts : List Timed) (m : Machine) : Prop :=
  ∀ {t : Tid} {c : Nat} {rest : List Frame}, m.frames t = ⟨c, .restart⟩ :: rest →
    ∃ e ∈ ts, e.call = c ∧ ∃ ns, e.what = .called (.setInterval ns) ∧
      ns.toInteger = .ok m.shared.interval

theorem Makes.exact {ts : List Timed} (h : m.Makes l es m')
    (ht : Trace (.start policy clock interval) ts m) (ho : m.InTurn l) (hx : m.Exact ts) :
    m'.Exact ts := by
  -- nobody else may move while a thread is about to restart
  have own : ∀ {u t : Tid} {d : Nat} {fs : List Frame} {rest : List Frame} {s : Shared},
      l.thread? = some u → frames ⟨s, m.calls.set u fs⟩ t = ⟨d, .restart⟩ :: rest →
        t = u ∧ fs = ⟨d, .restart⟩ :: rest := by
    intro u t d fs rest s hu hf
    by_cases htu : t = u
    · subst htu
      exact ⟨rfl, by rwa [frames_mk_set] at hf⟩
    · rw [frames_mk_set_of_ne _ _ htu] at hf
      obtain hc | hs := ho u hu t htu
      · simp [hf, mayCall, Point.ask?] at hc
      · simp [step?, hf, Point.step] at hs
  cases h with
  | advance ns =>
    intro t c rest hf
    exact hx hf
  | @call u op _ =>
    intro t c rest hf
    obtain ⟨-, h⟩ := own rfl hf
    cases op <;> cases h
  | @turn _ u d q rest' hs s course hd hf' hp _ =>
    intro t c rest hf
    obtain ⟨rfl, h⟩ := own hd.thread hf
    obtain ⟨hnext, -⟩ := List.cons.inj h
    obtain ⟨rfl, hcourse⟩ := Frame.mk.inj hnext
    obtain ⟨ns, n, rfl, hn, hint⟩ := Point.Goes.setInterval_of_restart hp hcourse
    obtain ⟨op, hstory⟩ := ht.story (live_of_frames hf')
    obtain rfl := hstory.op_of_setInterval
    obtain ⟨e, he, hc, hw⟩ := hstory.mem_called
    exact ⟨e, he, hc, ns, hw, hint ▸ hn⟩
  | gate hd _ _ =>
    intro t c rest hf
    obtain ⟨-, h⟩ := own hd.thread hf
    cases h
  | @leave u d o rest' hf' _ =>
    intro t c rest hf
    obtain ⟨rfl, rfl⟩ := own rfl hf
    have := ht.account.shaped.tail hf' _ List.mem_cons_self
    cases this
  | fail _ _ =>
    intro t c rest hf
    obtain ⟨-, h⟩ := own rfl hf
    cases h

end Machine

def Orderly (start : Machine) (h : List Move) : Prop := Throughout Machine.InTurn start h

theorem Run.exact {policy : Policy} {clock interval : Int} {h : List Move} {m : Machine}
    (hr : Run (.start policy clock interval) h m)
    (ho : Orderly (.start policy clock interval) h) : m.Exact (chronicle clock h) := by
  induction hr with
  | start => exact fun hf => by simp at hf
  | next hr hl ih =>
    intro t c rest hf
    obtain ⟨e, he, h⟩ := (Machine.makes_of_next? hl).exact hr.trace (ho.at_move hr) (ih ho.init) hf
    rw [chronicle_append]
    exact ⟨e, List.mem_append_left _ he, h⟩

/-- What keeps passes apart, and what opens the gate. The countdown runs from the clock that was
read, for the interval in force, when a pass last started or an interval was last set. -/
structure Gated (start : Machine) (h : List Move) (m : Machine) : Prop where
  due : m.shared.due = (countdown start h).1 + (countdown start h).2
  spaced : ∀ {g mv w mv' g' m m₁ x y}, h = g ++ mv :: (w ++ mv' :: g') → Run start g m →
    m.next? mv.label = some (m₁, mv.events) → mv.Passes x → mv'.Passes y →
    Throughout (fun m l => ¬m.Sets l) m₁ w → (∀ mv ∈ w, ∀ now, ¬mv.Passes now) →
    x + m.shared.interval ≤ y
  lasts : ∀ {g mv w mv' g' m m₁ r i y}, h = g ++ mv :: (w ++ mv' :: g') → Run start g m →
    m.next? mv.label = some (m₁, mv.events) → m.reset? mv = some (r, i) → 0 ≤ i →
    Throughout (fun m l => ¬m.Sets l) m₁ w → mv'.Passes y → r + i ≤ y
  starts : ∀ {g mv g' m₁ t c op}, h = g ++ mv :: g' → Run start (g ++ [mv]) m₁ →
    ⟨t, c, .called op⟩ ∈ mv.events → ∃ rest, m₁.frames t = ⟨c, op.start⟩ :: rest
  heads : Orderly start h → ∀ {g g' m t e}, h = g ++ g' → Run start g m → m.Heads t e →
    Leads m t e g'
  disposed : ∀ {g mv g' m m₁ t c r v rest}, h = g ++ mv :: g' → Run start g m →
    m.next? mv.label = some (m₁, mv.events) → m.frames t = ⟨c, .erase (.disposal r)⟩ :: rest →
    mv.label = .reply t (.ok v) → m₁.Heads t ⟨t, m₁.shared.fresh, .called .sweep⟩
  decides : Orderly start h → ∀ {g mv g' m m₁ t c rest}, h = g ++ mv :: g' → Run start g m →
    m.next? mv.label = some (m₁, mv.events) → m.frames t = ⟨c, .sweep .begin⟩ :: rest →
    mv.label = .step t →
    Leads m₁ t ⟨t, c, if (countdown start g).1 + (countdown start g).2 ≤ m.shared.clock
      then .passed m.shared.clock else .returned (.ok (.count 0))⟩ g'
  exact : Orderly start h → m.Exact (chronicle start.shared.clock h)

theorem Run.gated {policy : Policy} {clock interval : Int} {h : List Move} {m : Machine}
    (hr : Run (.start policy clock interval) h m) : Gated (.start policy clock interval) h m := by
  -- what a run that is taken apart at two moves consists of
  have between : ∀ {g mv w mv' g'} {m₀ m₁ : Machine}, h = g ++ mv :: (w ++ mv' :: g') →
      Run (.start policy clock interval) g m₀ → m₀.next? mv.label = some (m₁, mv.events) →
      ∃ m₂ m₃, Run m₁ w m₂ ∧ m₂.next? mv'.label = some (m₃, mv'.events) := by
    rintro g mv w mv' g' m₀ m₁ rfl hg hl
    obtain ⟨m₀', hg', hr⟩ := hr.split
    obtain rfl := hg.unique hg'
    obtain ⟨m₁', hl', hr⟩ := Run.cons_iff.1 hr
    cases hl.symm.trans hl'
    obtain ⟨m₂, hw, hr⟩ := hr.split
    obtain ⟨m₃, hl₃, -⟩ := Run.cons_iff.1 hr
    exact ⟨m₂, m₃, hw, hl₃⟩
  have after : ∀ {g g'} {m₀ : Machine}, h = g ++ g' → Run (.start policy clock interval) g m₀ →
      Run m₀ g' m := by
    rintro g g' m₀ rfl hg
    obtain ⟨m₀', hg', hr⟩ := hr.split
    rwa [hg.unique hg']
  constructor
  case due => exact hr.due_eq
  case spaced =>
    intro g mv w mv' g' m₀ m₁ x y he hg hl hx hy hs hp
    obtain ⟨m₂, m₃, hw, hl'⟩ := between he hg hl
    exact Machine.spaced hl hx hw hs hp hl' hy
  case lasts =>
    intro g mv w mv' g' m₀ m₁ r i y he hg hl hreset hi hs hy
    obtain ⟨m₂, m₃, hw, hl'⟩ := between he hg hl
    exact Machine.lasts hl hreset hi hw hs hl' hy
  case starts =>
    intro g mv g' m₁ t c op he hg hmem
    obtain ⟨m₀, -, hl⟩ := Run.concat_iff.1 hg
    exact (Machine.makes_of_next? hl).called hmem
  case heads =>
    intro ho g g' m₀ t e he hg hh
    subst he
    exact hh.leads (ho.after hg) (after rfl hg)
  case disposed =>
    intro g mv g' m₀ m₁ t c r v rest _ _ hl hf hlabel
    rw [hlabel] at hl
    simp only [Machine.next?, Machine.reply?, hf, Point.reply, Erase.reply] at hl
    obtain ⟨rfl, -⟩ := Prod.mk.inj (Option.some.inj hl)
    exact .disposed (Machine.frames_mk_set ..)
  case decides =>
    intro ho g mv g' m₀ m₁ t c rest he hg hl hf hlabel
    subst he
    have hstep : m₀.next? (.step t) = some (m₁, mv.events) := hlabel ▸ hl
    have hturn : m₀.InTurn (.step t) := hlabel ▸ ho.at_move hg
    have hcons := ho.after hg
    have hfirst : Run m₀ [mv] m₁ := Run.cons_iff.2 ⟨m₁, hl, .start⟩
    obtain ⟨m₁', hl', hr'⟩ := Run.cons_iff.1 (after rfl hg)
    cases hl.symm.trans hl'
    rw [← hg.due_eq]
    exact Machine.leads_of_reading hg.trace.passable hturn hf hstep
      (Throughout.after (g := [mv]) hcons hfirst) hr'
  case exact => exact hr.exact

namespace Machine

instance (m : Machine) (t : Tid) : Decidable (m.Settled t) :=
  inferInstanceAs (Decidable (_ ∨ _))

theorem inTurn_iff {m : Machine} {l : Label} : m.InTurn l ↔
    ∀ t ∈ l.thread?.toList, ∀ x ∈ m.calls.table, x.1 ≠ t → m.Settled x.1 := by
  simp only [InTurn, Option.mem_toList]
  refine forall_congr' fun t => forall_congr' fun _ => ⟨fun h x _ => h x.1, fun h u hu => ?_⟩
  cases hl : m.calls.table.lookup u with
  | none => exact .inl (by simp [frames, Stacks.get, hl, mayCall])
  | some fs =>
    obtain ⟨pre, post, htable, -⟩ := List.lookup_eq_some_iff.1 hl
    exact h (u, fs) (by simp [htable]) hu

instance (m : Machine) (l : Label) : Decidable (m.InTurn l) := decidable_of_iff _ inTurn_iff.symm

end Machine

/-- The interval is set; a pass starts when its time is up. Its predicate calls for a sweep, which
makes no pass, and then fails. The erasure that follows comes too early for the next pass. -/
def aborted : List Label :=
  List.flatten [
    [.call 0 (.setInterval (.int 5))], .replicate 3 (.step 0),
    [.call 0 (.fetch (.int 1) (.int 1))], .replicate 8 (.step 0),
    [.reply 0 (.ok .null)], .replicate 4 (.step 0),
    [.advance 7, .call 1 .sweep], .replicate 7 (.step 1),
    [.call 1 .sweep], .replicate 3 (.step 1),
    [.reply 1 (.error (.raised .boom ""))], .replicate 1 (.step 1),
    [.advance 4, .call 0 (.erase (.int 1))], .replicate 8 (.step 0)]

theorem gated_aborted :
    ∃ h m, Run (.start ⟨true, false⟩ 0 10) h m ∧ Gated (.start ⟨true, false⟩ 0 10) h m ∧
      Orderly (.start ⟨true, false⟩ 0 10) h ∧ countdown (.start ⟨true, false⟩ 0 10) h = (7, 5) ∧
      (chronicle 0 h).countP (·.what.passed?.isSome) = 1 :=
  ⟨_, _, .perform _ aborted, (Run.perform _ aborted).gated, Throughout.perform (by decide +kernel),
    by decide +kernel, by decide +kernel⟩

end Lapse
