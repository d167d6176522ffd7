import Lapse.Proofs.Serial

/-!
Callbacks that never fail. Where the supplier goes by the key alone and the predicate by the value
alone, and neither they nor the disposal action fail, call back or move the clock, what an operation
comes to is a function of the plain cache and the clock.
-/

namespace Lapse

/-- Equal keys are supplied with one value, and a value is always judged alike. -/
structure Host where
  supply : Key → Value
  approves : Value → Bool
  supply_congr : ∀ {a b : Key}, a.same b = true → supply a = supply b

inductive Host.Answers (host : Host) : Ask → Reply → Prop
  | supply (k : Key) : Answers host (.supply k) (.ok (host.supply k))
  | check {v w : Value} : w.isTrue = host.approves v → Answers host (.check v) (.ok w)
  | dispose (v w : Value) : Answers host (.dispose v) (.ok w)

theorem Host.exists_answer (host : Host) (a : Ask) : ∃ r, host.Answers a r := by
  cases a with
  | supply k => exact ⟨_, .supply k⟩
  | check v => exact ⟨.ok (.bool (host.approves v)), .check rfl⟩
  | dispose v => exact ⟨_, .dispose v .null⟩

def Label.Attends (host : Host) (t : Tid) (m : Machine) : Label → Prop
  | .step u => u = t
  | .reply u r => u = t ∧ ∀ c p rest a, m.frames t = ⟨c, p⟩ :: rest → p.ask? = some a →
    host.Answers a r
  | _ => False

/-- With the host, what the plan does is seen as these signals, and comes to that. -/
inductive Plan.Yields {α : Type} (host : Host) (now : Int) : Plan α → List Signal → α → Prop
  | done (a : α) : Yields host now (.done a) [] a
  | clock {rest : Int → Plan α} {ss : List Signal} {a : α} :
    Yields host now (rest now) ss a → Yields host now (.clock rest) ss a
  | log {l : Log} {plan : Plan α} {ss : List Signal} {a : α} :
    Yields host now plan ss a → Yields host now (.log l plan) (.logged l :: ss) a
  | ask {q : Ask} {r : Reply} {rest : Reply → Plan α} {ss : List Signal} {a : α} :
    host.Answers q r → Yields host now (rest r) ss a →
    Yields host now (.ask q rest) (.asked q :: .input (.reply r) :: ss) a

def Signal.supplied? : Signal → Option Key
  | asked (.supply k) => some k
  | _ => none

def Signal.returned? : Signal → Option Outcome
  | returned o => some o
  | _ => none

def supplied (ss : List Signal) : List Key := ss.filterMap (·.supplied?)

theorem supplied_append_of_nil {ss ss' : List Signal} (h : supplied ss = []) :
    supplied (ss ++ ss') = supplied ss' := by
  simp only [supplied, List.filterMap_append] at h ⊢
  rw [h, List.nil_append]

structure Served where
  passes : List Int
  supplied : List Key
  outcome : Outcome
  ledger : Ledger

structure Served.Seen (x : Served) (ss : List Signal) (o : Outcome) (l : Ledger) : Prop where
  supplied : Lapse.supplied ss = x.supplied
  outcome : o = x.outcome
  ledger : l = x.ledger

def Host.spares (host : Host) (policy : Policy) (now : Int) (s : Slot) : Bool :=
  !(decide (s.deadline < now) && (!policy.checks || host.approves s.value))

namespace Ledger

def passes (now : Int) (l : Ledger) : List Int := if now < l.due then [] else [now]

def removed (host : Host) (policy : Policy) (now : Int) (l : Ledger) : Nat :=
  if now < l.due then 0 else l.slots.countP fun s => !host.spares policy now s

def swept (host : Host) (policy : Policy) (now : Int) (l : Ledger) : Ledger :=
  if now < l.due then l
  else { l with slots := l.slots.filter (host.spares policy now), due := now + l.interval }

def fetched (host : Host) (policy : Policy) (now : Int) (call : Nat) (key ttl : Value)
    (l : Ledger) : Served :=
  match ttl.toInteger with
  | .error f => ⟨[], [], .error f, l⟩
  | .ok ns =>
    match key.toKey call with
    | .error f => ⟨l.passes now, [], .error f, l.swept host policy now⟩
    | .ok k =>
      match (l.swept host policy now).find? k with
      | some s => ⟨l.passes now, [], .ok (.value s.value),
        (l.swept host policy now).renew k (now + ns)⟩
      | none => ⟨l.passes now, [k], .ok (.value (host.supply k)),
        (l.swept host policy now).append ⟨k, host.supply k, now + ns⟩⟩

def dropped (host : Host) (policy : Policy) (now : Int) (call : Nat) (key : Value)
    (l : Ledger) : Served :=
  if l.slots.isEmpty then ⟨l.passes now, [], .ok .unit, l.swept host policy now⟩
  else
    match key.toKey call with
    | .error f => ⟨[], [], .error f, l⟩
    | .ok k => ⟨l.passes now, [], .ok .unit, (l.erase k).swept host policy now⟩

def serve (host : Host) (policy : Policy) (now : Int) (call : Nat) (l : Ledger) : Op → Served
  | .fetch key ttl => l.fetched host policy now call key ttl
  | .erase key => l.dropped host policy now call key
  | .clear => ⟨[], [], .ok .unit, { l with slots := [] }⟩
  | .sweep => ⟨l.passes now, [], .ok (.count (l.removed host policy now)), l.swept host policy now⟩
  | .size => ⟨[], [], .ok (.count l.slots.length), l⟩
  | .listing => ⟨[], [], .ok (.listing (l.slots.map fun s => (s.key, s.value))), l⟩
  | .interval => ⟨[], [], .ok (.nanos l.interval), l⟩
  | .setInterval ns =>
    match ns.toInteger with
    | .error f => ⟨[], [], .error f, l⟩
    | .ok n => ⟨[], [], .ok .unit, { l with interval := n, due := now + n }⟩

theorem passes_fetched (host : Host) (policy : Policy) (now : Int) (call : Nat) (key ttl : Value)
    (l : Ledger) : (l.fetched host policy now call key ttl).passes =
      if ttl.toInteger.isOk then l.passes now else [] := by
  unfold fetched
  cases ttl.toInteger with
  | error f => rfl
  | ok ns =>
    cases key.toKey call with
    | error f => rfl
    | ok k =>
      simp only
      cases (l.swept host policy now).find? k <;> rfl

theorem passes_dropped (host : Host) (policy : Policy) (now : Int) (call : Nat) (key : Value)
    (l : Ledger) : (l.dropped host policy now call key).passes =
      if l.slots.isEmpty || (key.toKey call).isOk then l.passes now else [] := by
  unfold dropped
  cases l.slots.isEmpty with
  | true => rfl
  | false => cases key.toKey call <;> rfl

theorem erase_of_find?_eq_none {l : Ledger} {k : Key} (h : l.find? k = none) : l.erase k = l := by
  have hall : l.slots.filter (fun s => !s.key.same k) = l.slots :=
    List.filter_eq_self.2 fun s hs => by simpa using List.find?_eq_none.1 h s hs
  simp only [erase, hall]

end Ledger

namespace Plan.Yields

variable {α β : Type} {host : Host} {policy : Policy} {now : Int} {call : Nat} {ss : List Signal}
  {l l' : Ledger} {o : Outcome}

theorem of_bind {plan : Plan α} {k : α → Plan β} {b : β} (h : (plan.bind k).Yields host now ss b) :
    ∃ ss₁ a ss₂, plan.Yields host now ss₁ a ∧ (k a).Yields host now ss₂ b ∧ ss = ss₁ ++ ss₂ := by
  induction plan generalizing ss with
  | done a => exact ⟨[], a, ss, .done a, h, rfl⟩
  | clock rest ih =>
    cases h with
    | clock h =>
      obtain ⟨ss₁, a, ss₂, h₁, h₂, rfl⟩ := ih now h
      exact ⟨ss₁, a, ss₂, .clock h₁, h₂, rfl⟩
  | log l plan ih =>
    cases h with
    | log h =>
      obtain ⟨ss₁, a, ss₂, h₁, h₂, rfl⟩ := ih h
      exact ⟨_, a, ss₂, .log h₁, h₂, rfl⟩
  | ask q rest ih =>
    cases h with
    | ask hq h =>
      obtain ⟨ss₁, a, ss₂, h₁, h₂, rfl⟩ := ih _ h
      exact ⟨_, a, ss₂, .ask hq h₁, h₂, rfl⟩

theorem returned {plan : Plan α} {a : α} (h : plan.Yields host now ss a) :
    ss.filterMap (·.returned?) = [] := by
  induction h with
  | done => rfl
  | clock _ ih => exact ih
  | log _ ih => simpa [Signal.returned?] using ih
  | ask _ _ ih => simpa [Signal.returned?] using ih

theorem approve {v : Value} {x : Except Fault Bool}
    (h : (Plan.approve policy v).Yields host now ss x) :
    x = .ok (!policy.checks || host.approves v) ∧ Lapse.supplied ss = [] := by
  unfold Plan.approve at h
  cases hc : policy.checks with
  | false =>
    simp only [hc] at h
    cases h
    exact ⟨rfl, rfl⟩
  | true =>
    simp only [hc] at h
    cases h with
    | ask hq h =>
      cases hq with
      | check hw =>
        cases h
        exact ⟨by simp [Except.map, hw], rfl⟩

theorem dispose {v : Value} {r : Reply} (h : (Plan.dispose policy v).Yields host now ss r) :
    (∃ w, r = .ok w) ∧ Lapse.supplied ss = [] := by
  unfold Plan.dispose at h
  cases hd : policy.disposes with
  | false =>
    simp only [hd] at h
    cases h
    exact ⟨⟨_, rfl⟩, rfl⟩
  | true =>
    simp only [hd] at h
    cases h with
    | ask hq h =>
      cases hq with
      | dispose _ w =>
        cases h
        exact ⟨⟨w, rfl⟩, rfl⟩

theorem walk {kept todo slots : List Slot} {n : Nat} {x : Except Fault Nat}
    (h : (Plan.walk policy kept n todo).Yields host now ss (x, slots)) :
    x = .ok (n + todo.countP fun s => !host.spares policy now s) ∧
      slots = kept ++ todo.filter (host.spares policy now) ∧ Lapse.supplied ss = [] := by
  induction todo generalizing kept n ss with
  | nil =>
    unfold Plan.walk at h
    split at h
    · cases h
      simp_all [Lapse.supplied]
    · cases h with
      | log h =>
        cases h
        simp [Lapse.supplied, Signal.supplied?]
  | cons s todo ih =>
    have spared (hs : host.spares policy now s = true) {ss : List Signal}
        (h : (Plan.walk policy (kept ++ [s]) n todo).Yields host now ss (x, slots)) :
        x = .ok (n + (s :: todo).countP fun s => !host.spares policy now s) ∧
          slots = kept ++ (s :: todo).filter (host.spares policy now) ∧ Lapse.supplied ss = [] := by
      obtain ⟨rfl, rfl, hnone⟩ := ih h
      exact ⟨by simp [hs], by simp [hs], hnone⟩
    unfold Plan.walk at h
    cases h with
    | clock h =>
      by_cases hlate : s.deadline < now
      · simp only [if_pos hlate] at h
        obtain ⟨ss₁, y, ss₂, happrove, h, rfl⟩ := h.of_bind
        obtain ⟨rfl, hnone⟩ := happrove.approve
        rw [supplied_append_of_nil hnone]
        cases hgo : !policy.checks || host.approves s.value with
        | false =>
          simp only [hgo] at h
          exact spared (by simp [Host.spares, hgo]) h
        | true =>
          simp only [hgo] at h
          have hs : host.spares policy now s = false := by simp [Host.spares, hlate, hgo]
          obtain ⟨ss₃, r, ss₄, hdispose, h, rfl⟩ := h.of_bind
          obtain ⟨⟨w, rfl⟩, hnone⟩ := hdispose.dispose
          rw [supplied_append_of_nil hnone]
          obtain ⟨rfl, rfl, hnone⟩ := ih h
          exact ⟨by simp [hs, Nat.add_assoc, Nat.add_comm 1], by simp [hs], hnone⟩
      · simp only [if_neg hlate] at h
        exact spared (by simp [Host.spares, hlate]) h

theorem sweep {x : Except Fault Nat} (h : (l.sweep policy).Yields host now ss (x, l')) :
    x = .ok (l.removed host policy now) ∧ l' = l.swept host policy now ∧
      Lapse.supplied ss = [] := by
  unfold Ledger.sweep at h
  cases h with
  | clock h =>
    by_cases hdue : now < l.due
    · simp only [if_pos hdue] at h
      cases h
      simp [Ledger.removed, Ledger.swept, hdue, Lapse.supplied]
    · simp only [if_neg hdue] at h
      obtain ⟨ss₁, ⟨y, slots⟩, ss₂, hwalk, hdone, rfl⟩ := of_bind h
      obtain ⟨hx, hslots, hnone⟩ := hwalk.walk
      cases hdone
      exact ⟨by simp [Ledger.removed, hdue, hx], by simp [Ledger.swept, hdue, hslots],
        supplied_append_of_nil hnone⟩

theorem drain {failures : List (Value × Fault)} {todo slots : List Slot}
    (h : (Plan.drain policy failures todo).Yields host now ss (o, slots)) :
    o = (if failures.isEmpty then .ok .unit else .error (.disposal failures)) ∧ slots = [] ∧
      Lapse.supplied ss = [] := by
  induction todo generalizing ss with
  | nil =>
    unfold Plan.drain at h
    cases h
    exact ⟨rfl, rfl, rfl⟩
  | cons s todo ih =>
    unfold Plan.drain at h
    obtain ⟨ss₁, r, ss₂, hdispose, h, rfl⟩ := h.of_bind
    obtain ⟨⟨w, rfl⟩, hnone⟩ := hdispose.dispose
    rw [supplied_append_of_nil hnone]
    exact ih h

theorem fetch {key ttl : Value} (h : (l.fetch policy call key ttl).Yields host now ss (o, l')) :
    (l.fetched host policy now call key ttl).Seen ss o l' := by
  unfold Ledger.fetch at h
  unfold Ledger.fetched
  cases hn : ttl.toInteger with
  | error f =>
    simp only [hn] at h
    cases h
    exact ⟨rfl, rfl, rfl⟩
  | ok ns =>
    simp only [hn] at h
    obtain ⟨ss₁, ⟨x, l₁⟩, ss₂, hsweep, h, rfl⟩ := of_bind h
    obtain ⟨rfl, rfl, hnone⟩ := hsweep.sweep
    have hrest : Lapse.supplied (ss₁ ++ ss₂) = Lapse.supplied ss₂ := supplied_append_of_nil hnone
    cases hk : key.toKey call with
    | error f =>
      simp only [hk] at h
      cases h
      exact ⟨hrest, rfl, rfl⟩
    | ok k =>
      cases hs : (l.swept host policy now).find? k with
      | some s =>
        simp only [hk, hs] at h
        cases h with
        | clock h =>
          cases h
          simp only [hs]
          exact ⟨hrest, rfl, rfl⟩
      | none =>
        simp only [hk, hs] at h
        cases h with
        | ask hq h =>
          cases hq with
          | supply =>
            cases h with
            | clock h =>
              cases h
              simp only [hs]
              exact ⟨hrest, rfl, rfl⟩

theorem sweepAfter (h : (l.sweepAfter policy).Yields host now ss (o, l')) :
    o = .ok .unit ∧ l' = l.swept host policy now ∧ Lapse.supplied ss = [] := by
  unfold Ledger.sweepAfter at h
  obtain ⟨ss₁, ⟨x, l₁⟩, ss₂, hsweep, h, rfl⟩ := of_bind h
  obtain ⟨rfl, rfl, hnone⟩ := hsweep.sweep
  cases h
  exact ⟨rfl, rfl, supplied_append_of_nil hnone⟩

theorem remove {key : Value} (h : (l.remove policy call key).Yields host now ss (o, l')) :
    (l.dropped host policy now call key).Seen ss o l' := by
  unfold Ledger.remove at h
  unfold Ledger.dropped
  cases he : l.slots.isEmpty with
  | true =>
    simp only [he, if_true] at h
    obtain ⟨rfl, rfl, hnone⟩ := sweepAfter h
    exact ⟨hnone, rfl, rfl⟩
  | false =>
    simp only [he, Bool.false_eq_true, if_false] at h
    cases hk : key.toKey call with
    | error f =>
      simp only [hk] at h
      cases h
      exact ⟨rfl, rfl, rfl⟩
    | ok k =>
      simp only [hk] at h
      cases hs : l.find? k with
      | none =>
        simp only [hs] at h
        obtain ⟨rfl, rfl, hnone⟩ := sweepAfter h
        simp only [Ledger.erase_of_find?_eq_none hs]
        exact ⟨hnone, rfl, rfl⟩
      | some s =>
        simp only [hs] at h
        obtain ⟨ss₁, r, ss₂, hdispose, h, rfl⟩ := of_bind h
        obtain ⟨⟨w, rfl⟩, hnone⟩ := hdispose.dispose
        obtain ⟨rfl, rfl, hnone'⟩ := sweepAfter h
        exact ⟨(supplied_append_of_nil hnone).trans hnone', rfl, rfl⟩

theorem perform {op : Op} (h : (l.perform policy call op).Yields host now ss (o, l')) :
    (l.serve host policy now call op).Seen ss o l' := by
  cases op with
  | fetch key ttl => exact h.fetch
  | erase key => exact h.remove
  | clear =>
    obtain ⟨ss₁, ⟨x, slots⟩, ss₂, hdrain, h, rfl⟩ := of_bind h
    obtain ⟨rfl, rfl, hnone⟩ := hdrain.drain
    cases h
    exact ⟨supplied_append_of_nil hnone, rfl, rfl⟩
  | sweep =>
    obtain ⟨ss₁, ⟨x, l₁⟩, ss₂, hsweep, h, rfl⟩ := of_bind h
    obtain ⟨rfl, rfl, hnone⟩ := hsweep.sweep
    cases h
    exact ⟨supplied_append_of_nil hnone, rfl, rfl⟩
  | setInterval ns =>
    simp only [Ledger.perform, Ledger.serve] at h ⊢
    cases hn : ns.toInteger with
    | error f =>
      simp only [hn] at h
      cases h
      exact ⟨rfl, rfl, rfl⟩
    | ok n =>
      simp only [hn] at h
      cases h with
      | clock h =>
        cases h
        exact ⟨rfl, rfl, rfl⟩
  | _ =>
    cases h
    exact ⟨rfl, rfl, rfl⟩

end Plan.Yields

end Lapse
