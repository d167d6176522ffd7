import Lapse.Proofs.Execution

namespace Lapse

def Move.input? (mv : Move) : Option Input :=
  match mv.label with
  | .call _ op => mv.events.head?.map fun e => .call e.call op
  | .reply _ r => some (.reply r)
  | .advance ns => some (.advance ns)
  | .step _ => none

def inputs (h : List Move) : List Input := h.filterMap (·.input?)

theorem inputs_concat (h : List Move) (mv : Move) :
    inputs (h ++ [mv]) = inputs h ++ mv.input?.toList := by
  cases hi : mv.input? <;> simp [inputs, hi]

def Move.signals (call : Option Nat) (mv : Move) : List Signal :=
  match mv.label with
  | .call _ op => mv.events.map fun e => .input (.call e.call op)
  | .advance ns => [.input (.advance ns)]
  | .step _ | .reply _ _ => Lapse.signals call mv.events

def Signal.called? : Signal → Option Nat
  | input (.call call _) => some call
  | _ => none

def latest (ss : List Signal) : Option Nat := (ss.filterMap (·.called?)).getLast?

def transcript (h : List Move) : List Signal :=
  h.foldl (fun ss mv => ss ++ mv.signals (latest ss)) []

theorem transcript_concat (h : List Move) (mv : Move) :
    transcript (h ++ [mv]) = transcript h ++ mv.signals (latest (transcript h)) := by
  simp [transcript]

/-- The thread alone moves; it calls when it has no call in progress, and the clock moves when it
has none or is inside a callback. -/
def Label.Serial (t : Tid) (m : Machine) : Label → Prop
  | .call u _ => u = t ∧ m.frames t = []
  | .step u => u = t
  | .reply u _ => u = t
  | .advance _ => mayCall (m.frames t) = true

instance (t : Tid) (m : Machine) : (l : Label) → Decidable (l.Serial t m)
  | .call _ _ => inferInstanceAs (Decidable (_ ∧ m.frames t = []))
  | .step u => inferInstanceAs (Decidable (u = t))
  | .reply u _ => inferInstanceAs (Decidable (u = t))
  | .advance _ => inferInstanceAs (Decidable (_ = true))

inductive Agrees (policy : Policy) (t : Tid) (st : Stand) (h : List Move) (m : Machine) : Prop
  | idle : m.frames t = [] → m.shared.Tidy policy →
    st.respond policy (inputs h) =
      (transcript h, .idle m.shared.clock m.shared.ledger) → Agrees policy t st h m
  | busy {c : Nat} {plan : Plan (Outcome × Ledger)} : latest (transcript h) = some c →
    Executes t c (Ended policy t c []) [] m plan →
    st.respond policy (inputs h) =
      (transcript h ++ (plan.play m.shared.clock).1, (plan.play m.shared.clock).2) →
    Agrees policy t st h m
  | inside {c : Nat} {rest : Reply → Plan (Outcome × Ledger)} {next : Int → Reply → Machine}
    {shown : Int → Reply → List Event} {ls : Int → Reply → List Log} :
    latest (transcript h) = some c → m.Inside t →
    (∀ ns r, (m.advance ns).reply? t r = some (next ns r, shown ns r)) →
    (∀ ns r, signals (some c) (shown ns r) = .input (.reply r) :: (ls ns r).map .logged) →
    (∀ ns r, Executes t c (Ended policy t c []) (ls ns r) (next ns r) (rest r)) →
    st.respond policy (inputs h) = (transcript h, .inside m.shared.clock rest) →
    Agrees policy t st h m

theorem latest_append {ss ss' : List Signal} (h : ∀ s ∈ ss', s.called? = none) :
    latest (ss ++ ss') = latest ss := by
  have : ss'.filterMap (·.called?) = [] := by simpa using h
  simp [latest, this]

namespace Machine

variable {m m' : Machine} {t : Tid} {evs : List Event}

theorem Inside.mayCall (h : m.Inside t) : mayCall (m.frames t) = true := by
  obtain ⟨f, rest, hf, ha⟩ := h
  simpa [hf, Lapse.mayCall] using ha

theorem Inside.frames_ne_nil (h : m.Inside t) : m.frames t ≠ [] := by
  obtain ⟨f, rest, hf, -⟩ := h
  simp [hf]

theorem advance_zero (m : Machine) : m.advance 0 = m := by
  simp [advance]

theorem advance_add (m : Machine) (a b : Int) : (m.advance a).advance b = m.advance (a + b) := by
  simp [advance, Int.add_assoc]

end Machine

namespace Executes

variable {α : Type} {t : Tid} {c : Nat} {Q : α → Machine → Prop} {ls : List Log} {m : Machine}
  {plan : Plan α}

theorem settle {plan : Plan (Outcome × Ledger)} {Q : Outcome × Ledger → Machine → Prop}
    (h : Executes t c Q ls m plan) : ∃ plan', Executes t c Q [] m plan' ∧
      plan.play m.shared.clock =
        (ls.map .logged ++ (plan'.play m.shared.clock).1, (plan'.play m.shared.clock).2) := by
  induction h with
  | done hq => exact ⟨_, .done hq, rfl⟩
  | clock _ ih => exact ih
  | log _ ih =>
    obtain ⟨plan', h', hp⟩ := ih
    exact ⟨plan', h', by simp [Plan.play, hp]⟩
  | step hs hsig h _ => exact ⟨_, .step hs hsig h, rfl⟩
  | ask hs hsig hin hr hshown h _ => exact ⟨_, .ask hs hsig hin hr hshown h, rfl⟩

theorem step?_isSome (h : Executes t c Q [] m plan)
    (hq : ∀ {a m}, Q a m → (m.step? t).isSome = true) : (m.step? t).isSome = true := by
  generalize hls : ([] : List Log) = ls at h
  induction h with
  | done h => exact hq h
  | clock _ ih => exact ih hls
  | log => cases hls
  | step hs => simp [hs]
  | ask hs => simp [hs]

end Executes

theorem Ended.step? {policy : Policy} {t : Tid} {c : Nat} {o : Outcome} {l : Ledger} {m : Machine}
    (h : Ended policy t c [] (o, l) m) :
    m.step? t = some (m.setFrames t [], [⟨t, c, .returned o⟩]) := by
  simp only [Machine.step?, h.frames, Machine.finish]

theorem Ended.step?_isSome {policy : Policy} {t : Tid} {c : Nat} {a : Outcome × Ledger}
    {m : Machine} (h : Ended policy t c [] a m) : (m.step? t).isSome = true := by
  obtain ⟨o, l⟩ := a
  simp [h.step?]

theorem inputs_step (h : List Move) (t : Tid) (evs : List Event) :
    inputs (h ++ [⟨.step t, evs⟩]) = inputs h := by
  simp [inputs_concat, Move.input?]

theorem transcript_step {h : List Move} {t : Tid} {c : Nat} {evs : List Event} {ss : List Signal}
    (hc : latest (transcript h) = some c) (hs : signals (some c) evs = ss) :
    transcript (h ++ [⟨.step t, evs⟩]) = transcript h ++ ss := by
  rw [transcript_concat, hc, ← hs]
  rfl

namespace Executes

variable {policy : Policy} {st : Stand} {t : Tid} {c : Nat} {ls : List Log} {h : List Move}
  {m m' : Machine} {plan : Plan (Outcome × Ledger)} {evs : List Event}

theorem agrees (he : Executes t c (Ended policy t c []) [] m plan)
    (hc : latest (transcript h) = some c)
    (hr : st.respond policy (inputs h) =
      (transcript h ++ (plan.play m.shared.clock).1, (plan.play m.shared.clock).2))
    (hs : m.step? t = some (m', evs)) : Agrees policy t st (h ++ [⟨.step t, evs⟩]) m' := by
  have hclock : m'.shared.clock = m.shared.clock := Machine.clock_next? (l := .step t) hs
  rw [← inputs_step h t evs] at hr
  generalize hls : ([] : List Log) = ls at he
  induction he with
  | @done m a hq =>
    obtain ⟨o, l⟩ := a
    cases hs.symm.trans hq.step?
    have htr := transcript_step (t := t) hc
      (show signals (some c) [⟨t, c, .returned o⟩] = [.returned o] by
        simp [signals, Happening.signal?])
    refine .idle (Machine.frames_setFrames ..) hq.tidy ?_
    obtain rfl : m.shared.ledger = l := hq.ledger
    rw [hr, htr]
    rfl
  | clock _ ih => exact ih hr hs hclock hls
  | log => cases hls
  | @step ls m m₁ evs' plan hs' hsig he' =>
    cases hs.symm.trans hs'
    have htr := transcript_step (t := t) hc hsig
    obtain ⟨plan', he', hplay⟩ := he'.settle
    refine .busy ?_ he' ?_
    · rw [htr, latest_append (by simp [Signal.called?]), hc]
    · rw [hclock] at hplay ⊢
      rw [hr, htr, hplay, List.append_assoc]
  | ask hs' hsig hinside hreply hshown hnext =>
    cases hs.symm.trans hs'
    have htr := transcript_step (t := t) hc hsig
    refine .inside ?_ hinside hreply hshown hnext ?_
    · rw [htr, latest_append (by simp [Signal.called?]), hc]
    · rw [hr, htr, hclock]
      rfl

theorem mayCall_eq_false (h : Executes t c (Ended policy t c []) [] m plan) :
    mayCall (m.frames t) = false := by
  have := h.step?_isSome Ended.step?_isSome
  cases hc : mayCall (m.frames t) with
  | false => rfl
  | true => simp [Machine.step?_of_mayCall hc] at this

theorem proceeds (h : Executes t c (Ended policy t c []) ls m plan) : ∃ n w m', Run m w m' ∧
    w.map (·.label) = .replicate n (.step t) ∧ mayCall (m'.frames t) = true := by
  induction h with
  | @done m a hq =>
    obtain ⟨o, l⟩ := a
    have hs : m.next? (.step t) = some (m.setFrames t [], _) := hq.step?
    exact ⟨1, _, _, Run.start.next hs, rfl, by simp [mayCall]⟩
  | clock _ ih => exact ih
  | log _ ih => exact ih
  | step hs _ _ ih =>
    obtain ⟨n, w, m', hr, hl, hc⟩ := ih
    have hrun : Run _ (⟨.step t, _⟩ :: w) m' := Run.cons_iff.2 ⟨_, hs, hr⟩
    exact ⟨n + 1, _, m', hrun, by simp [hl, List.replicate_succ], hc⟩
  | @ask m m' evs _ _ _ _ _ hs _ hin =>
    have hs : m.next? (.step t) = some (m', evs) := hs
    exact ⟨1, _, m', Run.start.next hs, rfl, hin.mayCall⟩

end Executes

namespace Agrees

variable {policy : Policy} {st : Stand} {t : Tid} {h : List Move} {m m' : Machine}
  {evs : List Event}

theorem called (ha : Agrees policy t st h m) (hnil : m.frames t = []) (op : Op) :
    Agrees policy t st (h ++ [⟨.call t op, [⟨t, m.shared.fresh, .called op⟩]⟩])
      (m.push t op (m.frames t)).1 := by
  have hmay : mayCall (m.frames t) = true := by simp [hnil, mayCall]
  cases ha with
  | busy _ he _ => simp [he.mayCall_eq_false] at hmay
  | inside _ hin _ _ _ _ => exact absurd hnil hin.frames_ne_nil
  | idle _ ht hr =>
    let mv : Move := ⟨.call t op, [⟨t, m.shared.fresh, .called op⟩]⟩
    have htr : transcript (h ++ [mv]) = transcript h ++ [.input (.call m.shared.fresh op)] :=
      transcript_concat ..
    have hin : inputs (h ++ [mv]) = inputs h ++ [.call m.shared.fresh op] := inputs_concat ..
    have hframes : (m.push t op (m.frames t)).1.frames t = [⟨m.shared.fresh, op.start⟩] := by
      rw [hnil]
      exact Machine.frames_mk_set ..
    have htidy : (m.push t op (m.frames t)).1.shared.Tidy policy :=
      ⟨ht.policy, ht.distinct, ht.gate, ht.pending, ht.held⟩
    refine .busy (c := m.shared.fresh) ?_ (Executes.perform hframes htidy (Nat.lt_succ_self _)) ?_
    · rw [htr]
      simp [latest, Signal.called?]
    · rw [htr, hin, Stand.respond_concat, hr, List.append_assoc]
      rfl

theorem stepped (ha : Agrees policy t st h m) (hs : m.step? t = some (m', evs)) :
    Agrees policy t st (h ++ [⟨.step t, evs⟩]) m' := by
  cases ha with
  | busy hc he hr => exact he.agrees hc hr hs
  | idle hnil _ _ =>
    have hnone := Machine.step?_of_mayCall (m := m) (t := t) (by simp [hnil, mayCall])
    cases hnone.symm.trans hs
  | inside _ hin _ _ _ _ => cases (Machine.step?_of_mayCall hin.mayCall).symm.trans hs

theorem replied (ha : Agrees policy t st h m) {r : Reply} (hs : m.reply? t r = some (m', evs)) :
    Agrees policy t st (h ++ [⟨.reply t r, evs⟩]) m' := by
  cases ha with
  | idle hnil _ _ => simp [Machine.reply?, hnil] at hs
  | busy _ he _ => simp [Machine.reply?_eq_none he.mayCall_eq_false] at hs
  | @inside c rest next shown ls hc _ hreply hshown hnext hr =>
    have hreply := hreply 0 r
    rw [m.advance_zero] at hreply
    cases hs.symm.trans hreply
    have hclock : (next 0 r).shared.clock = m.shared.clock :=
      Machine.clock_next? (l := .reply t r) hs
    obtain ⟨plan, he, hplay⟩ := (hnext 0 r).settle
    rw [hclock] at hplay
    have htr : transcript (h ++ [⟨.reply t r, shown 0 r⟩]) =
        transcript h ++ .input (.reply r) :: (ls 0 r).map .logged := by
      rw [transcript_concat, hc, ← hshown 0 r]
      rfl
    have hin : inputs (h ++ [⟨.reply t r, shown 0 r⟩]) = inputs h ++ [.reply r] :=
      inputs_concat ..
    refine .busy (c := c) ?_ he ?_
    · rw [htr, latest_append, hc]
      simp [Signal.called?]
    · rw [htr, hin, Stand.respond_concat, hr, hclock]
      simp only [Stand.take, hplay, List.append_assoc, List.cons_append]

theorem advanced (ha : Agrees policy t st h m) (hmay : mayCall (m.frames t) = true) (ns : Int) :
    Agrees policy t st (h ++ [⟨.advance ns, []⟩]) (m.advance ns) := by
  have htr : transcript (h ++ [⟨.advance ns, []⟩]) = transcript h ++ [.input (.advance ns)] :=
    transcript_concat ..
  have hin : inputs (h ++ [⟨.advance ns, []⟩]) = inputs h ++ [.advance ns] := inputs_concat ..
  cases ha with
  | idle hnil ht hr =>
    refine .idle hnil (ht.later _) ?_
    rw [htr, hin, Stand.respond_concat, hr]
    rfl
  | busy _ he _ => simp [he.mayCall_eq_false] at hmay
  | inside hc hinside hreply hshown hnext hr =>
    have hlat : latest (transcript h ++ [.input (.advance ns)]) = latest (transcript h) :=
      latest_append (by simp [Signal.called?])
    have hlater : ∀ k r, ((m.advance ns).advance k).reply? t r = _ := fun k r =>
      (congrArg (Machine.reply? · t r) (m.advance_add ns k)).trans (hreply (ns + k) r)
    refine .inside (htr ▸ hlat.trans hc) hinside hlater (fun k => hshown (ns + k))
      (fun k => hnext (ns + k)) ?_
    rw [htr, hin, Stand.respond_concat, hr]
    rfl

theorem next {l : Label} (ha : Agrees policy t st h m) (hl : l.Serial t m)
    (hs : m.next? l = some (m', evs)) : Agrees policy t st (h ++ [⟨l, evs⟩]) m' := by
  cases l with
  | call u op =>
    obtain ⟨rfl, hnil⟩ := hl
    obtain ⟨-, heq⟩ := Option.ite_none_right_eq_some.1 hs
    cases heq
    exact ha.called hnil op
  | step u =>
    obtain rfl : u = t := hl
    exact ha.stepped hs
  | reply u r =>
    obtain rfl : u = t := hl
    exact ha.replied hs
  | advance ns =>
    cases hs
    exact ha.advanced hl ns

end Agrees

structure Plain (policy : Policy) (t : Tid) (st : Stand) (h : List Move) (m : Machine) : Prop where
  seen : transcript h <+: (st.respond policy (inputs h)).1
  all : mayCall (m.frames t) = true → transcript h = (st.respond policy (inputs h)).1
  entries : m.frames t = [] →
    (st.respond policy (inputs h)).2 = .idle m.shared.clock m.shared.ledger
  proceeds : ∃ n w m', Run m w m' ∧ w.map (·.label) = .replicate n (.step t) ∧
    mayCall (m'.frames t) = true

theorem Agrees.plain {policy : Policy} {t : Tid} {st : Stand} {h : List Move} {m : Machine}
    (ha : Agrees policy t st h m) : Plain policy t st h m := by
  cases ha with
  | idle hnil ht hr =>
    have hmay : mayCall (m.frames t) = true := by simp [hnil, mayCall]
    constructor
    case seen => rw [hr]
    case all => exact fun _ => by rw [hr]
    case entries => exact fun _ => by rw [hr]
    case proceeds => exact ⟨0, [], m, .start, rfl, hmay⟩
  | busy _ he hr =>
    have hmay := he.mayCall_eq_false
    constructor
    case seen => exact hr ▸ List.prefix_append ..
    case all => exact fun h => by simp [hmay] at h
    case entries => exact fun h => by simp [h, mayCall] at hmay
    case proceeds => exact he.proceeds
  | inside _ hin _ _ _ hr =>
    constructor
    case seen => rw [hr]
    case all => exact fun _ => by rw [hr]
    case entries => exact fun h => absurd h hin.frames_ne_nil
    case proceeds => exact ⟨0, [], m, .start, rfl, hin.mayCall⟩

namespace Run

variable {policy : Policy} {clock interval : Int} {t : Tid} {h : List Move} {m : Machine}

theorem agrees (hr : Run (.start policy clock interval) h m)
    (hs : Throughout (Label.Serial t) (.start policy clock interval) h) :
    Agrees policy t (.idle clock ⟨[], interval, clock + interval⟩) h m := by
  induction hr with
  | start => exact .idle rfl ⟨rfl, .empty, rfl, rfl, rfl⟩ rfl
  | next hr hl ih => exact (ih hs.init).next (hs.at_move hr) hl

/-- A session of one thread whose callbacks do not call back gets from the cache what it gets from
a plain list. -/
theorem served (hr : Run (.start policy clock interval) h m)
    (hs : Throughout (Label.Serial t) (.start policy clock interval) h) :
    Plain policy t (.idle clock ⟨[], interval, clock + interval⟩) h m :=
  (hr.agrees hs).plain

end Run

/-- Two keys are supplied, the clock moving on meanwhile. A sweep deletes the one, whose disposal
fails, and ends as the predicate fails at the other, which is renewed. A removal finds nothing and
has its sweep rejected; a supplier is aborted; a clearing fails; one more key is supplied. -/
def errands : List Label :=
  List.flatten [
    [.call 0 (.fetch (.int 1) (.int 5))], .replicate 8 (.step 0),
    [.advance 3, .reply 0 (.ok (.text "a"))], .replicate 4 (.step 0),
    [.call 0 (.fetch (.text "k") (.int 5))], .replicate 8 (.step 0),
    [.reply 0 (.ok (.text "b"))], .replicate 4 (.step 0), [.advance 20],
    [.call 0 .sweep], .replicate 7 (.step 0),
    [.reply 0 (.ok (.bool true))], .replicate 2 (.step 0),
    [.reply 0 (.error (.raised .boom ""))], .replicate 2 (.step 0),
    [.advance 1, .reply 0 (.error (.raised .boom ""))], .replicate 1 (.step 0),
    [.call 0 (.fetch (.text "k") (.int 1))], .replicate 6 (.step 0), [.advance 30],
    [.call 0 (.erase (.int 7))], .replicate 9 (.step 0),
    [.reply 0 (.ok .null)], .replicate 4 (.step 0),
    [.call 0 (.fetch .null (.int 1))], .replicate 8 (.step 0),
    [.reply 0 (.error (.raised .fatal ""))], .replicate 3 (.step 0),
    [.call 0 .clear], .replicate 3 (.step 0),
    [.reply 0 (.error (.raised .boom ""))], .replicate 2 (.step 0),
    [.call 0 (.fetch (.int 2) (.text "5"))], .replicate 8 (.step 0),
    [.reply 0 (.ok .null)], .replicate 4 (.step 0)]

theorem served_errands :
    ∃ h m, Run (.start ⟨true, true⟩ 0 10) h m ∧
      Throughout (Label.Serial 0) (.start ⟨true, true⟩ 0 10) h ∧
      Plain ⟨true, true⟩ 0 (.idle 0 ⟨[], 10, 0 + 10⟩) h m ∧ (inputs h).length = 21 ∧
      (transcript h).length = 39 ∧ m.frames 0 = [] ∧
      m.shared.ledger.slots.map (·.deadline) = [59] :=
  have serial : Throughout (Label.Serial 0) (.start ⟨true, true⟩ 0 10) _ :=
    Throughout.perform (by decide +kernel)
  ⟨_, _, .perform _ errands, serial, (Run.perform _ errands).served serial, by decide +kernel,
    by decide +kernel, by decide +kernel, by decide +kernel⟩

end Lapse
