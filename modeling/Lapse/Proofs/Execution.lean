import Lapse.Proofs.Gate
import Lapse.Proofs.Ledger

/-!
Called when nothing else goes on, a cache does what the plain one plans. The lock of a sweep is then
free, a creation is the only one, each key of a snapshot still has the record it had when its turn
comes, and so a pass over the keys is a walk along the list.
-/

namespace Lapse

def Happening.signal? (own : Bool) : Happening → Option Signal
  | asked a => some (.asked a)
  | logged l => some (.logged l)
  | replied r => some (.input (.reply r))
  | returned o => if own then some (.returned o) else none
  | _ => none

def signals (call : Option Nat) (evs : List Event) : List Signal :=
  evs.filterMap fun e => e.what.signal? (call == some e.call)

def Entry.slot (e : Entry) : Slot := ⟨e.key, e.record.value, e.record.deadline⟩

def Shared.ledger (s : Shared) : Ledger := ⟨s.store.chart.slots, s.interval, s.due⟩

structure Shared.Tidy (policy : Policy) (s : Shared) : Prop where
  policy : s.policy = policy
  distinct : s.store.Distinct
  gate : s.gate = none
  pending : s.pending = []
  held : s.held = []

theorem Store.Distinct.put {s : Store} (hs : s.Distinct) (k : Key) (r : Record) :
    (s.put k r).Distinct := by
  cases hc : s.contains k with
  | true => exact put_of_contains hc r ▸ hs.replace k r
  | false => exact put_of_not_contains hc r ▸ hs.append hc r

namespace Shared.Tidy

variable {policy : Policy} {s : Shared}

theorem later (h : s.Tidy policy) (now : Int) : Shared.Tidy policy { s with clock := now } :=
  ⟨h.policy, h.distinct, h.gate, h.pending, h.held⟩

theorem erase (h : s.Tidy policy) (k : Key) : (s.erase k).Tidy policy :=
  ⟨h.policy, h.distinct.erase k, h.gate, h.pending, h.held⟩

theorem put (h : s.Tidy policy) (k : Key) (l : Lease) : (s.put k l).Tidy policy :=
  ⟨h.policy, h.distinct.put k _, h.gate, h.pending, h.held⟩

end Shared.Tidy

/-- By steps of the thread, in call `c`, the machine does what the plan says, whatever its callbacks
answer and however long they take, and ends as `Q` says. The records `ls` are logged already. -/
inductive Executes {α : Type} (t : Tid) (c : Nat) (Q : α → Machine → Prop) :
    List Log → Machine → Plan α → Prop
  | done {m : Machine} {a : α} : Q a m → Executes t c Q [] m (.done a)
  | clock {ls : List Log} {m : Machine} {rest : Int → Plan α} :
    Executes t c Q ls m (rest m.shared.clock) → Executes t c Q ls m (.clock rest)
  | log {l : Log} {ls : List Log} {m : Machine} {plan : Plan α} :
    Executes t c Q ls m plan → Executes t c Q (l :: ls) m (.log l plan)
  | step {ls : List Log} {m m' : Machine} {evs : List Event} {plan : Plan α} :
    m.step? t = some (m', evs) → signals (some c) evs = ls.map .logged →
    Executes t c Q ls m' plan → Executes t c Q [] m plan
  | ask {m m' : Machine} {evs : List Event} {a : Ask} {rest : Reply → Plan α}
    {next : Int → Reply → Machine} {shown : Int → Reply → List Event}
    {ls : Int → Reply → List Log} :
    m.step? t = some (m', evs) → signals (some c) evs = [.asked a] → m'.Inside t →
    (∀ ns r, (m'.advance ns).reply? t r = some (next ns r, shown ns r)) →
    (∀ ns r, signals (some c) (shown ns r) = .input (.reply r) :: (ls ns r).map .logged) →
    (∀ ns r, Executes t c Q (ls ns r) (next ns r) (rest r)) → Executes t c Q [] m (.ask a rest)

structure Ended (policy : Policy) (t : Tid) (c : Nat) (below : List Frame) (a : Outcome × Ledger)
    (m : Machine) : Prop where
  frames : m.frames t = ⟨c, .done a.1⟩ :: below
  tidy : m.shared.Tidy policy
  ledger : m.shared.ledger = a.2

namespace Executes

variable {α β : Type} {t : Tid} {c : Nat} {Q : α → Machine → Prop} {Q' : β → Machine → Prop}
  {ls : List Log} {m m' : Machine} {plan : Plan α} {evs : List Event}

theorem bind {k : α → Plan β} (h : Executes t c Q ls m plan)
    (hk : ∀ {a m}, Q a m → Executes t c Q' [] m (k a)) :
    Executes t c Q' ls m (plan.bind k) := by
  induction h with
  | done hq => exact hk hq
  | clock _ ih => exact .clock ih
  | log _ ih => exact .log ih
  | step hs hsig _ ih => exact .step hs hsig ih
  | ask hs hsig hin hr hshown _ ih => exact .ask hs hsig hin hr hshown ih

theorem quiet (hs : m.step? t = some (m', evs)) (hsig : signals (some c) evs = [])
    (h : Executes t c Q [] m' plan) : Executes t c Q [] m plan :=
  .step hs (show _ = [].map _ from hsig) h

end Executes

namespace Machine

variable {m : Machine} {t : Tid} {d : Nat} {p : Point} {below : List Frame} {s : Shared}
  {hs : List Happening} {course : Course Point}

theorem take_of_ne_gated (hg : ∀ q, course ≠ .gated q) : m.take t d below ⟨s, hs, course⟩ =
    (⟨s, m.calls.set t (⟨d, course.next⟩ :: below)⟩, hs.map (Event.mk t d)) := by
  cases course with
  | gated q => exact absurd rfl (hg q)
  | _ => rfl

theorem step?_of_step (hf : m.frames t = ⟨d, p⟩ :: below)
    (hp : p.step m.shared t d = some ⟨s, hs, course⟩) (hg : ∀ q, course ≠ .gated q) :
    m.step? t =
      some (⟨s, m.calls.set t (⟨d, course.next⟩ :: below)⟩, hs.map (Event.mk t d)) := by
  have hd : ∀ o, p ≠ .done o := by
    rintro o rfl
    cases hp
  rw [step?_of_frames hf hd, hp, Option.map_some, take_of_ne_gated hg]

theorem reply?_of_reply {r : Reply} (hf : m.frames t = ⟨d, p⟩ :: below)
    (hp : p.reply m.shared r = some ⟨s, hs, course⟩) (hg : ∀ q, course ≠ .gated q) :
    m.reply? t r = some (⟨s, m.calls.set t (⟨d, course.next⟩ :: below)⟩,
      ⟨t, d, .replied r⟩ :: hs.map (Event.mk t d)) := by
  simp only [reply?, hf, hp, Option.map_some, take_of_ne_gated hg]

end Machine

theorem signals_append (call : Option Nat) (evs evs' : List Event) :
    signals call (evs ++ evs') = signals call evs ++ signals call evs' :=
  List.filterMap_append

theorem signals_map (call : Option Nat) (t : Tid) (d : Nat) (hs : List Happening) :
    signals call (hs.map (Event.mk t d)) = hs.filterMap (·.signal? (call == some d)) := by
  simp [signals, List.filterMap_map]

namespace Point

variable {s : Shared} {t : Tid} {call : Nat} {r : Record}

theorem step_erase_discard : step s t call (.erase (.discard r)) = some (if s.policy.disposes then
    ⟨s, [.asked (.dispose r.value)], .go (.erase (.disposal r))⟩
    else ⟨s, [], .go (.erase .sweep)⟩) := by
  simp only [step, Erase.step]
  split <;> rfl

theorem step_clear_discard {p : Clearing} {k : Key} : step s t call (.clear (.discard p k r)) =
    some (if s.policy.disposes then
      ⟨s, [.asked (.dispose r.value)], .go (.clear (.disposal p k r))⟩
      else ⟨s, [], .go (.clear (.scan p))⟩) := by
  simp only [step, Clear.step]
  split <;> rfl

theorem step_sweep_discard {p : Pass} {k : Key} : step s t call (.sweep (.discard p k r)) =
    some (if s.policy.disposes then
      ⟨s, [.asked (.dispose r.value)], .go (.sweep (.disposal p k r))⟩
      else ⟨s, [], .go (.sweep (.scan p.count))⟩) := by
  simp only [step, Sweep.step]
  split <;> rfl

end Point

namespace Executes

variable {α : Type} {t : Tid} {c d : Nat} {Q : α → Machine → Prop} {m : Machine} {plan : Plan α}
  {p : Point} {below : List Frame} {s : Shared} {hs : List Happening} {course : Course Point}

theorem turn (ls : List Log) (hf : m.frames t = ⟨d, p⟩ :: below)
    (hp : p.step m.shared t d = some ⟨s, hs, course⟩) (hg : ∀ q, course ≠ .gated q)
    (hsig : ∀ own, hs.filterMap (·.signal? own) = ls.map .logged)
    (h : Executes t c Q ls ⟨s, m.calls.set t (⟨d, course.next⟩ :: below)⟩ plan) :
    Executes t c Q [] m plan :=
  .step (Machine.step?_of_step hf hp hg) ((signals_map ..).trans (hsig _)) h

theorem going {q : Point} (hf : m.frames t = ⟨d, p⟩ :: below)
    (hp : p.step m.shared t d = some ⟨s, hs, .go q⟩)
    (hsig : ∀ own, hs.filterMap (·.signal? own) = [])
    (h : Executes t c Q [] ⟨s, m.calls.set t (⟨d, q⟩ :: below)⟩ plan) :
    Executes t c Q [] m plan :=
  turn [] hf hp (by simp) hsig h

inductive Resumes (t : Tid) (c d : Nat) (Q : α → Machine → Prop) (calls : Stacks) (p : Point)
    (below : List Frame) (s : Shared) (r : Reply) (plan : Plan α) : Prop
  | intro {s' : Shared} {hs : List Happening} {course : Course Point} (ls : List Log) :
    p.reply s r = some ⟨s', hs, course⟩ → (∀ q, course ≠ .gated q) →
    (∀ own, hs.filterMap (·.signal? own) = ls.map .logged) →
    Executes t c Q ls ⟨s', calls.set t (⟨d, course.next⟩ :: below)⟩ plan →
    Resumes t c d Q calls p below s r plan

theorem asking {p' : Point} {a : Ask} {rest : Reply → Plan α} (hf : m.frames t = ⟨d, p⟩ :: below)
    (hp : p.step m.shared t d = some ⟨s, hs, .go p'⟩) (ha : p'.ask?.isSome = true)
    (hsig : ∀ own, hs.filterMap (·.signal? own) = [.asked a])
    (h : ∀ now r, Resumes t c d Q m.calls p' below { s with clock := now } r (rest r)) :
    Executes t c Q [] m (.ask a rest) := by
  have hframes : ∀ now, Machine.frames ⟨{ s with clock := now },
      m.calls.set t (⟨d, p'⟩ :: below)⟩ t = ⟨d, p'⟩ :: below := fun _ => Machine.frames_mk_set ..
  have h' : ∀ now r, ∃ s' hs course ls, p'.reply { s with clock := now } r = some ⟨s', hs, course⟩ ∧
      (∀ q, course ≠ .gated q) ∧ (∀ own, hs.filterMap (·.signal? own) = ls.map .logged) ∧
      Executes t c Q ls ⟨s', m.calls.set t (⟨d, course.next⟩ :: below)⟩ (rest r) := by
    intro now r
    obtain ⟨ls, hreply, hg, hshown, hnext⟩ := h now r
    exact ⟨_, _, _, _, hreply, hg, hshown, hnext⟩
  choose s' hs' course ls hreply hg hshown hnext using h'
  have hanswer : ∀ ns r, (Machine.advance ⟨s, m.calls.set t (⟨d, p'⟩ :: below)⟩ ns).reply? t r =
      some (⟨s' (s.clock + ns) r, m.calls.set t (⟨d, (course (s.clock + ns) r).next⟩ :: below)⟩,
        ⟨t, d, .replied r⟩ :: (hs' (s.clock + ns) r).map (Event.mk t d)) := by
    intro ns r
    have := Machine.reply?_of_reply (hframes _) (hreply (s.clock + ns) r) (hg _ r)
    rwa [Stacks.set_set] at this
  refine .ask (Machine.step?_of_step hf hp (by simp)) ((signals_map ..).trans (hsig _))
    ⟨_, _, hframes s.clock, ha⟩ hanswer (fun ns r => ?_) (fun ns r => hnext (s.clock + ns) r)
  exact congrArg (Signal.input (.reply r) :: ·) ((signals_map ..).trans (hshown _ r _))

theorem disposing {policy : Policy} {v : Value} {w q : Point} {k : Reply → Plan α}
    (hf : m.frames t = ⟨d, p⟩ :: below) (hpol : m.shared.policy = policy)
    (hp : p.step m.shared t d = some (if m.shared.policy.disposes then
      ⟨m.shared, [.asked (.dispose v)], .go w⟩ else ⟨m.shared, [], .go q⟩))
    (ha : w.ask?.isSome = true)
    (skip : Executes t c Q [] ⟨m.shared, m.calls.set t (⟨d, q⟩ :: below)⟩ (k (.ok .null)))
    (h : ∀ now r, Resumes t c d Q m.calls w below { m.shared with clock := now } r (k r)) :
    Executes t c Q [] m ((Plan.dispose policy v).bind k) := by
  subst hpol
  cases hd : m.shared.policy.disposes with
  | false =>
    simp only [hd, Bool.false_eq_true, if_false] at hp
    simp only [Plan.dispose, hd]
    exact going hf hp (fun _ => rfl) skip
  | true =>
    simp only [hd, if_true] at hp
    simp only [Plan.dispose, hd]
    exact asking hf hp ha (fun _ => rfl) h

theorem discard {policy : Policy} {w : Pass} {k : Key} {r : Record} {fault : Fault → α}
    (hf : m.frames t = ⟨d, .sweep (.discard w k r)⟩ :: below) (hpol : m.shared.policy = policy)
    (next : ∀ now, Executes t c Q [] ⟨{ m.shared with clock := now },
      m.calls.set t (⟨d, .sweep (.scan w.count)⟩ :: below)⟩ plan)
    (cut : ∀ now f, Q (fault f) ⟨{ m.shared with clock := now },
      m.calls.set t (⟨d, .done (.error f)⟩ :: below)⟩) :
    Executes t c Q [] m ((Plan.dispose policy r.value).bind fun
      | .ok _ => plan
      | .error f =>
        if f.isOrdinary then .log (.disposalFailed k f) plan else .done (fault f)) := by
  refine disposing hf hpol Point.step_sweep_discard rfl (next _) fun now reply => ?_
  cases reply with
  | ok v => exact .intro [] rfl (by simp [Course.map]) (fun _ => rfl) (next now)
  | error f =>
    cases ho : f.isOrdinary with
    | true =>
      have hreply : Point.reply { m.shared with clock := now } (.error f)
          (.sweep (.disposal w k r)) = some ⟨{ m.shared with clock := now },
            [.logged (.disposalFailed k f)], .go (.sweep (.scan w.count))⟩ := by
        simp [Point.reply, Sweep.reply, ho, Turn.map, Course.map]
      refine .intro [.disposalFailed k f] hreply (by simp) (fun _ => rfl) ?_
      simp only [ho, if_true]
      exact .log (next now)
    | false =>
      have hreply : Point.reply { m.shared with clock := now } (.error f)
          (.sweep (.disposal w k r)) = some ⟨{ m.shared with clock := now }, [],
            .finish (.error f)⟩ := by
        simp [Point.reply, Sweep.reply, ho, Turn.map, Course.map]
      refine .intro [] hreply (by simp) (fun _ => rfl) ?_
      simp only [ho, Bool.false_eq_true, if_false]
      exact .done (cut now f)

end Executes

theorem Store.Distinct.erase_of_split {s : Store} {kept todo : List Entry} {e : Entry}
    (hs : s.Distinct) (he : s.entries = kept ++ e :: todo) :
    (s.erase e.key).entries = kept ++ todo := by
  have apart : (kept ++ e :: todo).Pairwise fun a b => a.key.same b.key = false := by
    rw [← he]
    exact List.pairwise_map.1 hs
  obtain ⟨-, htail, hcross⟩ := List.pairwise_append.1 apart
  obtain ⟨hlater, -⟩ := List.pairwise_cons.1 htail
  have hkept : kept.filter (fun x => !x.key.same e.key) = kept := by
    refine List.filter_eq_self.2 fun x hx => ?_
    simp [hcross x hx e List.mem_cons_self]
  have htodo : todo.filter (fun x => !x.key.same e.key) = todo := by
    refine List.filter_eq_self.2 fun x hx => ?_
    simp [Key.same_comm x.key, hlater x hx]
  simp [Store.erase, he, hkept, htodo]

theorem Executes.ending {policy : Policy} {t : Tid} {c d : Nat} {m : Machine} {p : Point}
    {below : List Frame} {o : Outcome} (hf : m.frames t = ⟨d, p⟩ :: below)
    (hp : p.step m.shared t d = some ⟨m.shared, [], .finish o⟩) (ht : m.shared.Tidy policy) :
    Executes t c (Ended policy t d below) [] m (.done (o, m.shared.ledger)) :=
  turn [] hf hp (by simp) (fun _ => rfl) (.done ⟨Machine.frames_mk_set .., ht, rfl⟩)

structure Walking (policy : Policy) (interval due : Int) (kept todo : List Entry) (s : Shared) :
    Prop where
  tidy : s.Tidy policy
  entries : s.store.entries = kept ++ todo
  interval : s.interval = interval
  due : s.due = due

namespace Walking

variable {policy : Policy} {interval due : Int} {kept todo : List Entry} {e : Entry} {s : Shared}

theorem later (h : Walking policy interval due kept todo s) (now : Int) :
    Walking policy interval due kept todo { s with clock := now } :=
  ⟨h.tidy.later now, h.entries, h.interval, h.due⟩

theorem keep (h : Walking policy interval due kept (e :: todo) s) :
    Walking policy interval due (kept ++ [e]) todo s :=
  ⟨h.tidy, by simp [h.entries], h.interval, h.due⟩

theorem drop (h : Walking policy interval due kept (e :: todo) s) :
    Walking policy interval due kept todo (s.erase e.key) :=
  ⟨h.tidy.erase _, h.tidy.distinct.erase_of_split h.entries, h.interval, h.due⟩

theorem found (h : Walking policy interval due kept (e :: todo) s) :
    s.store.find? e.key = some e.record :=
  h.tidy.distinct.find?_of_mem (by simp [h.entries])

theorem isStored (h : Walking policy interval due kept (e :: todo) s) :
    s.isStored e.key e.record = true := by
  simp [Shared.isStored, h.found]

theorem ledger (h : Walking policy interval due kept todo s) :
    s.ledger = ⟨kept.map (·.slot) ++ todo.map (·.slot), interval, due⟩ := by
  simp [Shared.ledger, Store.chart, h.entries, h.interval, h.due, Entry.slot]

end Walking

def Walked (policy : Policy) (interval due : Int) (t : Tid) (d : Nat) (below : List Frame)
    (a : Except Fault Nat × List Slot) : Machine → Prop :=
  Ended policy t d below (a.1.map .count, ⟨a.2, interval, due⟩)

def Walks (policy : Policy) (interval due : Int) (t : Tid) (c d : Nat) (below : List Frame)
    (todo : List Entry) : Prop :=
  ∀ {m : Machine} {kept : List Entry} {n : Nat}, Walking policy interval due kept todo m.shared →
    m.frames t = ⟨d, .sweep (.scan ⟨todo.map (·.key), n⟩)⟩ :: below →
    Executes t c (Walked policy interval due t d below) [] m
      (.walk policy (kept.map (·.slot)) n (todo.map (·.slot)))

theorem Walking.walked {policy : Policy} {interval due : Int} {kept todo : List Entry} {m : Machine}
    {t : Tid} {d : Nat} {below : List Frame} {o : Except Fault Nat}
    (h : Walking policy interval due kept todo m.shared)
    (hf : m.frames t = ⟨d, .done (o.map .count)⟩ :: below) :
    Walked policy interval due t d below (o, kept.map (·.slot) ++ todo.map (·.slot)) m :=
  ⟨hf, h.tidy, h.ledger⟩

namespace Executes

variable {policy : Policy} {interval due : Int} {kept todo : List Entry} {t : Tid} {c d n : Nat}
  {m : Machine} {below : List Frame} {e : Entry}

theorem settleEntry (h : Walking policy interval due kept (e :: todo) m.shared)
    (hf : m.frames t = ⟨d, .sweep (.settle ⟨todo.map (·.key), n⟩ e.key e.record)⟩ :: below)
    (ih : Walks policy interval due t c d below todo) :
    Executes t c (Walked policy interval due t d below) [] m
      ((Plan.dispose policy e.record.value).bind fun
        | .ok _ => .walk policy (kept.map (·.slot)) (n + 1) (todo.map (·.slot))
        | .error f =>
          if f.isOrdinary then
            .log (.disposalFailed e.key f)
              (.walk policy (kept.map (·.slot)) (n + 1) (todo.map (·.slot)))
          else .done (.error f, kept.map (·.slot) ++ todo.map (·.slot))) := by
  have hstep : Point.step m.shared t d (.sweep (.settle ⟨todo.map (·.key), n⟩ e.key e.record)) =
      some ⟨m.shared.erase e.key, [.deleted e.key e.record],
        .go (.sweep (.discard ⟨todo.map (·.key), n⟩ e.key e.record))⟩ := by
    simp [Point.step, Sweep.step, h.isStored, Turn.map, Course.map]
  refine going hf hstep (fun _ => rfl) ?_
  refine discard (Machine.frames_mk_set ..) h.drop.tidy.policy (fun now => ?_) fun now f => ?_
  · exact ih (h.drop.later now) (Machine.frames_mk_set ..)
  · exact (h.drop.later now).walked (o := .error f) (Machine.frames_mk_set ..)

theorem judgeEntry (h : Walking policy interval due kept (e :: todo) m.shared)
    (hf : m.frames t = ⟨d, .sweep (.judge ⟨todo.map (·.key), n⟩ e.key e.record)⟩ :: below)
    (ih : Walks policy interval due t c d below todo) :
    Executes t c (Walked policy interval due t d below) [] m
      (.walk policy (kept.map (·.slot)) n ((e :: todo).map (·.slot))) := by
  have keep : ∀ {m' : Machine}, Walking policy interval due kept (e :: todo) m'.shared →
      m'.frames t = ⟨d, .sweep (.scan ⟨todo.map (·.key), n⟩)⟩ :: below →
      Executes t c (Walked policy interval due t d below) [] m'
        (.walk policy (kept.map (·.slot) ++ [e.slot]) n (todo.map (·.slot))) := by
    intro m' h hf
    simpa using ih h.keep hf
  refine .clock ?_
  by_cases hlate : e.record.deadline < m.shared.clock
  · have hexp : e.record.expired m.shared.clock = true := decide_eq_true hlate
    rw [if_pos (show e.slot.deadline < m.shared.clock from hlate)]
    cases hc : policy.checks with
    | false =>
      have hstep : Point.step m.shared t d
          (.sweep (.judge ⟨todo.map (·.key), n⟩ e.key e.record)) =
          some ⟨m.shared, [.judged e.key e.record m.shared.clock],
            .go (.sweep (.settle ⟨todo.map (·.key), n⟩ e.key e.record))⟩ := by
        simp [Point.step, Sweep.step, hexp, h.tidy.policy, hc, Turn.map, Course.map]
      simp only [Plan.approve, hc]
      exact going hf hstep (fun _ => rfl)
        (settleEntry h (Machine.frames_mk_set ..) ih)
    | true =>
      have hstep : Point.step m.shared t d
          (.sweep (.judge ⟨todo.map (·.key), n⟩ e.key e.record)) =
          some ⟨m.shared, [.judged e.key e.record m.shared.clock, .asked (.check e.record.value)],
            .go (.sweep (.approval ⟨todo.map (·.key), n⟩ e.key e.record))⟩ := by
        simp [Point.step, Sweep.step, hexp, h.tidy.policy, hc, Turn.map, Course.map]
      simp only [Plan.approve, hc]
      refine asking hf hstep rfl (fun _ => rfl) fun now r => ?_
      cases r with
      | error f =>
        refine .intro [] rfl (by simp [Course.map]) (fun _ => rfl) (.done ?_)
        exact (h.later now).walked (o := .error f) (Machine.frames_mk_set ..)
      | ok v =>
        cases hv : v.isTrue with
        | false =>
          have hreply : Point.reply { m.shared with clock := now } (.ok v)
              (.sweep (.approval ⟨todo.map (·.key), n⟩ e.key e.record)) =
              some ⟨{ m.shared with clock := now }, [],
                .go (.sweep (.scan ⟨todo.map (·.key), n⟩))⟩ := by
            simp [Point.reply, Sweep.reply, hv, Turn.map, Course.map]
          refine .intro [] hreply (by simp) (fun _ => rfl) ?_
          simp only [Plan.bind, Except.map, hv]
          exact keep (h.later now) (Machine.frames_mk_set ..)
        | true =>
          have hreply : Point.reply { m.shared with clock := now } (.ok v)
              (.sweep (.approval ⟨todo.map (·.key), n⟩ e.key e.record)) =
              some ⟨{ m.shared with clock := now }, [],
                .go (.sweep (.settle ⟨todo.map (·.key), n⟩ e.key e.record))⟩ := by
            simp [Point.reply, Sweep.reply, hv, Turn.map, Course.map]
          refine .intro [] hreply (by simp) (fun _ => rfl) ?_
          simp only [Plan.bind, Except.map, hv]
          exact settleEntry (h.later now) (Machine.frames_mk_set ..) ih
  · have hexp : e.record.expired m.shared.clock = false := decide_eq_false hlate
    rw [if_neg (show ¬e.slot.deadline < m.shared.clock from hlate)]
    have hstep : Point.step m.shared t d (.sweep (.judge ⟨todo.map (·.key), n⟩ e.key e.record)) =
        some ⟨m.shared, [.judged e.key e.record m.shared.clock],
          .go (.sweep (.scan ⟨todo.map (·.key), n⟩))⟩ := by
      simp [Point.step, Sweep.step, hexp, Turn.map, Course.map]
    exact going hf hstep (fun _ => rfl) (keep h (Machine.frames_mk_set ..))

theorem walk (todo : List Entry) : Walks policy interval due t c d below todo := by
  induction todo with
  | nil =>
    intro m kept n h hf
    have hdone : ∀ {m : Machine} {n}, Walking policy interval due kept [] m.shared →
        m.frames t = ⟨d, .done (.ok (.count n))⟩ :: below →
        Walked policy interval due t d below (.ok n, kept.map (·.slot)) m := by
      intro m n h hf
      simpa using h.walked (o := .ok n) hf
    cases n with
    | zero =>
      exact turn [] hf rfl (by simp [Course.map]) (fun _ => rfl)
        (.done (hdone h (Machine.frames_mk_set ..)))
    | succ n =>
      exact turn [.swept (n + 1)] hf rfl (by simp [Course.map]) (fun _ => rfl)
        (.log (.done (hdone h (Machine.frames_mk_set ..))))
  | cons e todo ih =>
    intro m kept n h hf
    have hexamine : Point.step m.shared t d (.sweep (.scan ⟨(e :: todo).map (·.key), n⟩)) =
        some ⟨m.shared, [.examined e.key e.record],
          .go (.sweep (.judge ⟨todo.map (·.key), n⟩ e.key e.record))⟩ := by
      simp [Point.step, Sweep.step, h.found, Turn.map, Course.map]
    exact going hf hexamine (fun _ => rfl)
      (judgeEntry h (Machine.frames_mk_set ..) ih)

theorem sweep (hf : m.frames t = ⟨d, .sweep .begin⟩ :: below) (ht : m.shared.Tidy policy) :
    Executes t c (fun a => Ended policy t d below (a.1.map .count, a.2)) [] m
      (m.shared.ledger.sweep policy) := by
  refine .clock (going hf rfl (fun _ => rfl) ?_)
  by_cases hdue : m.shared.clock < m.shared.due
  · rw [if_pos (show m.shared.clock < m.shared.ledger.due from hdue)]
    have hstep : Point.step m.shared t d (.sweep (.due m.shared.clock)) =
        some ⟨m.shared, [], .finish (.ok (.count 0))⟩ := by
      simp [Point.step, Sweep.step, hdue, Turn.map, Course.map]
    exact turn [] (Machine.frames_mk_set ..) hstep (by simp) (fun _ => rfl)
      (.done ⟨Machine.frames_mk_set .., ht, rfl⟩)
  · rw [if_neg (show ¬m.shared.clock < m.shared.ledger.due from hdue)]
    let s₁ : Shared := { m.shared with gate := some t }
    let s₂ : Shared :=
      { m.shared with gate := none, due := m.shared.clock + m.shared.interval }
    have hdue' : Point.step m.shared t d (.sweep (.due m.shared.clock)) =
        some ⟨m.shared, [], .go (.sweep (.contend m.shared.clock))⟩ := by
      simp [Point.step, Sweep.step, hdue, Turn.map, Course.map]
    have hcontend : Point.step m.shared t d (.sweep (.contend m.shared.clock)) =
        some ⟨s₁, [], .go (.sweep (.recheck m.shared.clock))⟩ := by
      simp [Point.step, Sweep.step, ht.gate, Turn.map, Course.map, s₁]
    have hrecheck : Point.step s₁ t d (.sweep (.recheck m.shared.clock)) =
        some ⟨s₂, [.passed m.shared.clock], .go (.sweep .snapshot)⟩ := by
      simp [Point.step, Sweep.step, hdue, Turn.map, Course.map, s₁, s₂]
    have hw : Walking policy m.shared.interval (m.shared.clock + m.shared.interval) []
        m.shared.store.entries s₂ :=
      ⟨⟨ht.policy, ht.distinct, rfl, ht.pending, ht.held⟩, rfl, rfl, rfl⟩
    refine going (Machine.frames_mk_set ..) hdue' (fun _ => rfl) ?_
    refine going (Machine.frames_mk_set ..) hcontend (fun _ => rfl) ?_
    refine going (Machine.frames_mk_set ..) hrecheck (fun _ => rfl) ?_
    refine going (Machine.frames_mk_set ..) rfl (fun _ => rfl) ?_
    exact bind (walk _ (n := 0) hw (Machine.frames_mk_set ..)) fun hq => .done hq

theorem sweepFirst {α : Type} {Q : α → Machine → Prop} {p p' : Point}
    {k : Except Fault Nat × Ledger → Plan α} (hf : m.frames t = ⟨c, p⟩ :: below)
    (hp : p.step m.shared t c = some ⟨m.shared, [], .gated p'⟩) (hw : p'.ask? = none)
    (ht : m.shared.Tidy policy) (hc : c < m.shared.fresh)
    (ok : ∀ {m' : Machine} {n}, m'.frames t = ⟨c, p'⟩ :: below → m'.shared.Tidy policy →
      Executes t c Q [] m' (k (.ok n, m'.shared.ledger)))
    (error : ∀ {m' : Machine} {f}, m'.frames t = ⟨c, .done (.error f)⟩ :: below →
      m'.shared.Tidy policy → Executes t c Q [] m' (k (.error f, m'.shared.ledger))) :
    Executes t c Q [] m ((m.shared.ledger.sweep policy).bind k) := by
  have hd : ∀ o, p ≠ .done o := by
    rintro o rfl
    cases hp
  have hpush : m.step? t = some (m.push t .sweep (⟨c, p'⟩ :: below)) := by
    rw [Machine.step?_of_frames hf hd, hp]
    rfl
  have htidy : (m.push t .sweep (⟨c, p'⟩ :: below)).1.shared.Tidy policy :=
    ⟨ht.policy, ht.distinct, ht.gate, ht.pending, ht.held⟩
  refine .quiet hpush rfl ?_
  refine bind (sweep (Machine.frames_mk_set ..) htidy) ?_
  rintro ⟨o, l⟩ m' ⟨hframes, htidy', hl⟩
  obtain rfl : m'.shared.ledger = l := hl
  -- the sweep is a call of its own, so its return is not the caller's
  have hsig : ∀ o, signals (some c) [⟨t, m.shared.fresh, .returned o⟩] = [] := by
    simp [signals, Happening.signal?, Nat.ne_of_lt hc]
  cases o with
  | ok n =>
    have hstep : m'.step? t = some (m'.setFrames t (⟨c, p'⟩ :: below),
        [⟨t, m.shared.fresh, .returned (.ok (.count n))⟩]) := by
      simp only [Machine.step?, hframes]
      rfl
    exact .quiet hstep (hsig _) (ok (Machine.frames_setFrames ..) htidy')
  | error f =>
    have hmay : mayCall (⟨c, p'⟩ :: below) = false := by simp [mayCall, hw]
    have hstep : m'.step? t = some (m'.setFrames t (⟨c, .done (.error f)⟩ :: below),
        [⟨t, m.shared.fresh, .returned (.error f)⟩]) := by
      simp only [Machine.step?, hframes, Except.map, Machine.finish, hmay]
      rfl
    exact .quiet hstep (hsig _) (error (Machine.frames_setFrames ..) htidy')

theorem sweepAfter (hf : m.frames t = ⟨c, .erase .sweep⟩ :: below) (ht : m.shared.Tidy policy)
    (hc : c < m.shared.fresh) :
    Executes t c (Ended policy t c below) [] m (m.shared.ledger.sweepAfter policy) := by
  refine sweepFirst hf rfl rfl ht hc (fun hf ht => ?_) fun hf ht => .done ⟨hf, ht, rfl⟩
  exact ending hf rfl ht

end Executes

namespace Shared

variable {s : Shared} {k : Key} {r : Record} {l : Lease}

theorem ledger_find? (hr : s.store.find? k = some r) :
    ∃ key, s.ledger.find? k = some ⟨key, r.value, r.deadline⟩ := by
  obtain ⟨e, he, rfl⟩ := Option.map_eq_some_iff.1 hr
  refine ⟨e.key, ?_⟩
  simp only [ledger, Ledger.find?, Store.chart, List.find?_map, Function.comp_def, he]
  rfl

theorem ledger_find?_eq_none (hr : s.store.find? k = none) : s.ledger.find? k = none := by
  have he : s.store.entries.find? (·.key.same k) = none := Option.map_eq_none_iff.1 hr
  simp only [ledger, Ledger.find?, Store.chart, List.find?_map, Function.comp_def, he]
  rfl

theorem ledger_renew (hs : s.store.Distinct) (hr : s.store.find? k = some r)
    (hv : l.value = r.value) : (s.put k l).ledger = s.ledger.renew k l.deadline := by
  simp only [ledger, put, Store.put_of_contains (Store.contains_of_find? hr), Store.chart,
    Store.replace, Ledger.renew, List.map_map, Ledger.mk.injEq, and_true]
  refine List.map_congr_left fun e he => ?_
  cases hk : e.key.same k with
  | true => simp [hk, record, hv, hs.record_eq he hk hr]
  | false => simp [hk]

theorem ledger_append (hr : s.store.find? k = none) :
    (s.put k l).ledger = s.ledger.append ⟨k, l.value, l.deadline⟩ := by
  simp [ledger, put, Store.put_of_not_contains (Store.find?_eq_none_iff.1 hr), Store.chart,
    Store.append, Ledger.append, record]

theorem ledger_erase : (s.erase k).ledger = s.ledger.erase k := by
  simp [ledger, erase, Store.chart, Store.erase, Ledger.erase, List.filter_map, Function.comp_def]

end Shared

structure Making (policy : Policy) (t : Tid) (k : Key) (a : Nat) (s : Shared) : Prop where
  policy : s.policy = policy
  distinct : s.store.Distinct
  gate : s.gate = none
  pending : s.pending = [⟨k, a, some t⟩]
  held : s.held = [(a, t)]

theorem Making.over {policy : Policy} {t : Tid} {k : Key} {a : Nat} {s : Shared}
    (h : Making policy t k a s) : ((s.withdraw a).letGo a).Tidy policy :=
  ⟨h.policy, h.distinct, h.gate, by simp [Shared.letGo, Shared.withdraw, h.pending],
    by simp [Shared.letGo, Shared.withdraw, h.held]⟩

namespace Executes

variable {policy : Policy} {t : Tid} {c d a : Nat} {m : Machine} {below : List Frame} {k : Key}
  {ns : Int} {key : Value}

theorem renewal {p : Point} {r : Record} (hf : m.frames t = ⟨d, p⟩ :: below)
    (hp : p.step m.shared t d = some ((Fetch.renew m.shared k r ns).map .fetch))
    (ht : m.shared.Tidy policy) (hr : m.shared.store.find? k = some r) :
    Executes t c (Ended policy t d below) [] m
      (.clock fun now => .done (.ok (.value r.value), m.shared.ledger.renew k (now + ns))) := by
  have hl : (m.shared.put k (r.toLease.renewed m.shared.clock ns)).ledger =
      m.shared.ledger.renew k (m.shared.clock + ns) := Shared.ledger_renew ht.distinct hr rfl
  exact .clock (turn [] hf hp (by simp [Fetch.renew, Course.map]) (fun _ => rfl)
    (.done ⟨Machine.frames_mk_set .., ht.put k _, hl⟩))

theorem closing {o : Outcome} (hf : m.frames t = ⟨d, .fetch (.withdraw k a o)⟩ :: below)
    (h : Making policy t k a m.shared) :
    Executes t c (Ended policy t d below) [] m (.done (o, m.shared.ledger)) := by
  have hstep : Point.step m.shared t d (.fetch (.withdraw k a o)) =
      some ⟨m.shared.withdraw a, [.withdrawn k a], .go (.fetch (.release a o))⟩ := by
    simp [Point.step, Fetch.step, Shared.isPending, Shared.pending?, h.pending, Turn.map,
      Course.map]
  refine going hf hstep (fun _ => rfl) ?_
  exact turn [] (Machine.frames_mk_set ..) rfl (by simp [Course.map]) (fun _ => rfl)
    (.done ⟨Machine.frames_mk_set .., h.over, rfl⟩)

theorem supplied {now : Int} {r : Reply}
    (h : Making policy t k a m.shared) (hr : m.shared.store.find? k = none) :
    Resumes t c d (Ended policy t d below) m.calls (.fetch (.supply k ns a)) below
      { m.shared with clock := now } r (match r with
        | .error f => .done (.error f, m.shared.ledger)
        | .ok v => .clock fun now =>
          .done (.ok (.value v), m.shared.ledger.append ⟨k, v, now + ns⟩)) := by
  have later : Making policy t k a { m.shared with clock := now } :=
    ⟨h.policy, h.distinct, h.gate, h.pending, h.held⟩
  cases r with
  | error f =>
    exact .intro [] rfl (by simp [Course.map]) (fun _ => rfl)
      (closing (Machine.frames_mk_set ..) later)
  | ok v =>
    refine .intro [] rfl (by simp [Course.map]) (fun _ => rfl) (.clock ?_)
    let s : Shared := { m.shared with clock := now }
    have hc : s.store.contains k = false := Store.find?_eq_none_iff.1 hr
    have hinsert : Point.step s t d (.fetch (.insert k a ⟨v, now + ns⟩)) =
        some ⟨s.put k ⟨v, now + ns⟩, [.inserted k (s.record ⟨v, now + ns⟩)],
          .go (.fetch (.withdraw k a (.ok (.value v))))⟩ := by
      simp [Point.step, Fetch.step, hc, Turn.map, Course.map]
    have put : Making policy t k a (s.put k ⟨v, now + ns⟩) :=
      ⟨h.policy, h.distinct.put _ _, h.gate,
        h.pending, h.held⟩
    refine going (Machine.frames_mk_set ..) hinsert (fun _ => rfl) ?_
    have hl : (s.put k ⟨v, now + ns⟩).ledger = m.shared.ledger.append ⟨k, v, now + ns⟩ :=
      Shared.ledger_append hr
    rw [← hl]
    exact closing (Machine.frames_mk_set ..) put

theorem making (hf : m.frames t = ⟨d, .fetch (.register k ns)⟩ :: below)
    (ht : m.shared.Tidy policy) (hr : m.shared.store.find? k = none) :
    Executes t c (Ended policy t d below) [] m
      (.ask (.supply k) fun
        | .error f => .done (.error f, m.shared.ledger)
        | .ok v => .clock fun now =>
          .done (.ok (.value v), m.shared.ledger.append ⟨k, v, now + ns⟩)) := by
  let a := m.shared.fresh
  let s₁ : Shared := m.shared.create k
  let s₂ : Shared := s₁.hold a t
  let s₃ : Shared := s₂.own a t
  have hregister : Point.step m.shared t d (.fetch (.register k ns)) =
      some ⟨s₁, [.joined k a], .go (.fetch (.acquire k ns a))⟩ := by
    simp [Point.step, Fetch.step, hr, Shared.pending?, ht.pending, Turn.map, Course.map, s₁, a]
  have hacquire : Point.step s₁ t d (.fetch (.acquire k ns a)) =
      some ⟨s₂, [], .go (.fetch (.claim k ns a))⟩ := by
    simp [Point.step, Fetch.step, Shared.isHeld, Shared.create, ht.held, Turn.map, Course.map,
      s₁, s₂]
  have hclaim : Point.step s₂ t d (.fetch (.claim k ns a)) =
      some ⟨s₃, [.asked (.supply k)], .go (.fetch (.supply k ns a))⟩ := by
    simp [Point.step, Fetch.step, Shared.isPending, Shared.pending?, Shared.hold, Shared.create,
      ht.pending, Turn.map, Course.map, s₁, s₂, s₃, a]
  have hm : Making policy t k a s₃ :=
    ⟨ht.policy, ht.distinct, ht.gate,
      by simp [s₃, s₂, s₁, Shared.own, Shared.hold, Shared.create, ht.pending, a],
      by simp [s₃, s₂, s₁, Shared.own, Shared.hold, Shared.create, ht.held]⟩
  refine going hf hregister (fun _ => rfl) ?_
  refine going (Machine.frames_mk_set ..) hacquire (fun _ => rfl) ?_
  refine asking (Machine.frames_mk_set ..) hclaim rfl (fun _ => rfl) fun now r => ?_
  exact supplied (m := ⟨s₃, _⟩) hm hr

theorem fetch {ttl : Value} (hf : m.frames t = ⟨c, .fetch (.coerce key ttl)⟩ :: below)
    (ht : m.shared.Tidy policy) (hc : c < m.shared.fresh) :
    Executes t c (Ended policy t c below) [] m (m.shared.ledger.fetch policy c key ttl) := by
  unfold Ledger.fetch
  cases hn : ttl.toInteger with
  | error f =>
    have hstep : Point.step m.shared t c (.fetch (.coerce key ttl)) =
        some ⟨m.shared, [], .finish (.error f)⟩ := by
      simp [Point.step, Fetch.step, hn, Turn.map, Course.map]
    exact ending hf hstep ht
  | ok ns =>
    have hstep : Point.step m.shared t c (.fetch (.coerce key ttl)) =
        some ⟨m.shared, [], .gated (.fetch (.lookup key ns))⟩ := by
      simp [Point.step, Fetch.step, hn, Turn.map, Course.map]
    refine sweepFirst hf hstep rfl ht hc (fun {m n} hf ht => ?_) fun hf ht => .done ⟨hf, ht, rfl⟩
    cases hk : key.toKey c with
    | error f =>
      have hstep : Point.step m.shared t c (.fetch (.lookup key ns)) =
          some ⟨m.shared, [], .finish (.error f)⟩ := by
        simp [Point.step, Fetch.step, hk, Turn.map, Course.map]
      exact ending hf hstep ht
    | ok k =>
      cases hr : m.shared.store.find? k with
      | some r =>
        obtain ⟨key', hl⟩ := Shared.ledger_find? hr
        have hstep : Point.step m.shared t c (.fetch (.lookup key ns)) =
            some ((Fetch.renew m.shared k r ns).map .fetch) := by
          simp [Point.step, Fetch.step, hk, hr]
        simp only [hl]
        exact renewal hf hstep ht hr
      | none =>
        have hstep : Point.step m.shared t c (.fetch (.lookup key ns)) =
            some ⟨m.shared, [], .go (.fetch (.register k ns))⟩ := by
          simp [Point.step, Fetch.step, hk, hr, Turn.map, Course.map]
        simp only [Shared.ledger_find?_eq_none hr]
        exact going hf hstep (fun _ => rfl)
          (making (Machine.frames_mk_set ..) ht hr)

theorem remove (hf : m.frames t = ⟨c, .erase (.pop key)⟩ :: below) (ht : m.shared.Tidy policy)
    (hc : c < m.shared.fresh) :
    Executes t c (Ended policy t c below) [] m (m.shared.ledger.remove policy c key) := by
  have hempty : m.shared.ledger.slots.isEmpty = m.shared.store.isEmpty := by
    simp [Shared.ledger, Store.chart, Store.isEmpty]
  unfold Ledger.remove
  rw [hempty]
  cases he : m.shared.store.isEmpty with
  | true =>
    have hstep : Point.step m.shared t c (.erase (.pop key)) =
        some ⟨m.shared, [], .go (.erase .sweep)⟩ := by
      simp [Point.step, Erase.step, he, Turn.map, Course.map]
    rw [if_pos rfl]
    exact going hf hstep (fun _ => rfl) (sweepAfter (Machine.frames_mk_set ..) ht hc)
  | false =>
    rw [if_neg Bool.false_ne_true]
    cases hk : key.toKey c with
    | error f =>
      have hstep : Point.step m.shared t c (.erase (.pop key)) =
          some ⟨m.shared, [], .finish (.error f)⟩ := by
        simp [Point.step, Erase.step, he, hk, Turn.map, Course.map]
      exact ending hf hstep ht
    | ok k =>
      cases hr : m.shared.store.find? k with
      | none =>
        have hstep : Point.step m.shared t c (.erase (.pop key)) =
            some ⟨m.shared, [], .go (.erase .sweep)⟩ := by
          simp [Point.step, Erase.step, he, hk, hr, Turn.map, Course.map]
        simp only [Shared.ledger_find?_eq_none hr]
        exact going hf hstep (fun _ => rfl)
          (sweepAfter (Machine.frames_mk_set ..) ht hc)
      | some r =>
        obtain ⟨key', hl⟩ := Shared.ledger_find? hr
        have hstep : Point.step m.shared t c (.erase (.pop key)) =
            some ⟨m.shared.erase k, [.deleted k r], .go (.erase (.discard r))⟩ := by
          simp [Point.step, Erase.step, he, hk, hr, Turn.map, Course.map]
        have erased : ∀ now, Shared.Tidy policy { m.shared.erase k with clock := now } :=
          (ht.erase k).later
        have follow : ∀ now calls, Executes t c (Ended policy t c below) []
            ⟨{ m.shared.erase k with clock := now },
              Stacks.set calls t (⟨c, .erase .sweep⟩ :: below)⟩
            ((m.shared.ledger.erase k).sweepAfter policy) := by
          intro now calls
          rw [← Shared.ledger_erase]
          exact sweepAfter (Machine.frames_mk_set ..) (erased now) hc
        simp only [hl]
        refine going hf hstep (fun _ => rfl) ?_
        refine disposing (Machine.frames_mk_set ..) ht.policy Point.step_erase_discard rfl
          (follow m.shared.clock _) fun now reply => ?_
        cases reply with
        | ok v =>
          exact .intro [] rfl (by simp [Course.map]) (fun _ => rfl) (follow now _)
        | error f =>
          exact .intro [] rfl (by simp [Course.map]) (fun _ => rfl)
            (.done ⟨Machine.frames_mk_set .., erased now, Shared.ledger_erase⟩)

theorem drain {interval due : Int} {todo : List Entry} {failures : List (Value × Fault)}
    (h : Walking policy interval due [] todo m.shared)
    (hf : m.frames t = ⟨d, .clear (.scan ⟨todo.map (·.key), failures⟩)⟩ :: below) :
    Executes t c (fun a => Ended policy t d below (a.1, ⟨a.2, interval, due⟩)) [] m
      (.drain policy failures (todo.map (·.slot))) := by
  induction todo generalizing m failures with
  | nil =>
    have hstep : Point.step m.shared t d (.clear (.scan ⟨[], failures⟩)) =
        some ⟨m.shared, [], .finish
          (if failures.isEmpty then .ok .unit else .error (.disposal failures))⟩ := by
      cases failures <;> rfl
    exact turn [] hf hstep (by simp) (fun _ => rfl)
      (.done ⟨Machine.frames_mk_set .., h.tidy, h.ledger⟩)
  | cons e todo ih =>
    have hstep : Point.step m.shared t d (.clear (.scan ⟨(e :: todo).map (·.key), failures⟩)) =
        some ⟨m.shared.erase e.key, [.deleted e.key e.record],
          .go (.clear (.discard ⟨todo.map (·.key), failures⟩ e.key e.record))⟩ := by
      simp [Point.step, Clear.step, h.found, Turn.map, Course.map]
    refine going hf hstep (fun _ => rfl) ?_
    refine disposing (Machine.frames_mk_set ..) h.drop.tidy.policy Point.step_clear_discard rfl
      (ih h.drop (Machine.frames_mk_set ..)) fun now reply => ?_
    cases reply with
    | ok v =>
      exact .intro [] rfl (by simp [Course.map]) (fun _ => rfl)
        (ih (h.drop.later now) (Machine.frames_mk_set ..))
    | error f =>
      cases ho : f.isOrdinary with
      | true =>
        have hreply : Point.reply { m.shared.erase e.key with clock := now } (.error f)
            (.clear (.disposal ⟨todo.map (·.key), failures⟩ e.key e.record)) =
            some ⟨{ m.shared.erase e.key with clock := now }, [], .go (.clear
              (.scan ⟨todo.map (·.key), failures ++ [(e.key.toValue, f)]⟩))⟩ := by
          simp [Point.reply, Clear.reply, ho, Turn.map, Course.map]
        refine .intro [] hreply (by simp) (fun _ => rfl) ?_
        simp only [ho, if_true]
        exact ih (h.drop.later now) (Machine.frames_mk_set ..)
      | false =>
        have hreply : Point.reply { m.shared.erase e.key with clock := now } (.error f)
            (.clear (.disposal ⟨todo.map (·.key), failures⟩ e.key e.record)) =
            some ⟨{ m.shared.erase e.key with clock := now }, [], .finish (.error f)⟩ := by
          simp [Point.reply, Clear.reply, ho, Turn.map, Course.map]
        refine .intro [] hreply (by simp) (fun _ => rfl) ?_
        simp only [ho, Bool.false_eq_true, if_false]
        exact .done
          ⟨Machine.frames_mk_set .., (h.drop.later now).tidy, (h.drop.later now).ledger⟩

theorem setInterval {ns : Value} (hf : m.frames t = ⟨c, .setInterval ns⟩ :: below)
    (ht : m.shared.Tidy policy) :
    Executes t c (Ended policy t c below) [] m
      (m.shared.ledger.perform policy c (.setInterval ns)) := by
  simp only [Ledger.perform]
  cases hn : ns.toInteger with
  | error f =>
    have hstep : Point.step m.shared t c (.setInterval ns) =
        some ⟨m.shared, [], .finish (.error f)⟩ := by
      simp [Point.step, hn]
    exact ending hf hstep ht
  | ok n =>
    have hstep : Point.step m.shared t c (.setInterval ns) =
        some ⟨{ m.shared with interval := n }, [], .go .restart⟩ := by
      simp [Point.step, hn]
    refine .clock (going hf hstep (fun _ => rfl) ?_)
    exact turn [] (Machine.frames_mk_set ..) rfl (by simp) (fun _ => rfl)
      (.done ⟨Machine.frames_mk_set ..,
        ⟨ht.policy, ht.distinct, ht.gate, ht.pending, ht.held⟩, rfl⟩)

theorem perform {op : Op} (hf : m.frames t = ⟨c, op.start⟩ :: below) (ht : m.shared.Tidy policy)
    (hc : c < m.shared.fresh) :
    Executes t c (Ended policy t c below) [] m (m.shared.ledger.perform policy c op) := by
  cases op with
  | fetch key ttl => exact fetch hf ht hc
  | erase key => exact remove hf ht hc
  | clear =>
    refine going hf rfl (fun _ => rfl) ?_
    have hw : Walking policy m.shared.interval m.shared.due [] m.shared.store.entries m.shared :=
      ⟨ht, rfl, rfl, rfl⟩
    exact bind (drain hw (Machine.frames_mk_set ..)) fun hq => .done hq
  | sweep => exact bind (sweep hf ht) fun hq => .done hq
  | size =>
    have hsize : m.shared.ledger.slots.length = m.shared.store.size := m.shared.store.size_chart
    exact ending hf (by rw [hsize]; rfl) ht
  | listing =>
    have hlisting : (m.shared.ledger.slots.map fun s => (s.key, s.value)) = m.shared.store.toList :=
      m.shared.store.toList_chart
    exact ending hf (by rw [hlisting]; rfl) ht
  | interval => exact ending hf rfl ht
  | setInterval ns => exact setInterval hf ht

end Executes

end Lapse
