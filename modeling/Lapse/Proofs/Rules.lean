import Lapse.Machine.Step

/-!
The rules by which calls go on, one for each way that a step or the end of a callback can turn
out. Each relates where a call stands to what happens, the shared state after it, and the course
that the call takes.
-/

namespace Lapse

inductive Fetch.Goes (s : Shared) (t : Tid) (call : Nat) :
    Fetch → List Happening → Shared → Course Fetch → Prop
  | refused {key ttl : Value} {f : Fault} : ttl.toInteger = .error f →
    Goes s t call (.coerce key ttl) [] s (.finish (.error f))
  | coerced {key ttl : Value} {ns : Int} : ttl.toInteger = .ok ns →
    Goes s t call (.coerce key ttl) [] s (.gated (.lookup key ns))
  | unkeyed {key : Value} {ttl : Int} {f : Fault} : key.toKey call = .error f →
    Goes s t call (.lookup key ttl) [] s (.finish (.error f))
  | found {key : Value} {ttl : Int} {k : Key} {r : Record} :
    key.toKey call = .ok k → s.store.find? k = some r →
    Goes s t call (.lookup key ttl) [.renewed k (s.record (r.toLease.renewed s.clock ttl))]
      (s.put k (r.toLease.renewed s.clock ttl)) (.finish (.ok (.value r.value)))
  | missed {key : Value} {ttl : Int} {k : Key} :
    key.toKey call = .ok k → s.store.find? k = none →
    Goes s t call (.lookup key ttl) [] s (.go (.register k ttl))
  | foundLate {k : Key} {ttl : Int} {r : Record} : s.store.find? k = some r →
    Goes s t call (.register k ttl) [.renewed k (s.record (r.toLease.renewed s.clock ttl))]
      (s.put k (r.toLease.renewed s.clock ttl)) (.finish (.ok (.value r.value)))
  | created {k : Key} {ttl : Int} : s.store.find? k = none → s.pending? k = none →
    Goes s t call (.register k ttl) [.joined k s.fresh] (s.create k)
      (.go (.acquire k ttl s.fresh))
  | recursive {k : Key} {ttl : Int} {c : Creation} :
    s.store.find? k = none → s.pending? k = some c → c.owner = some t →
    Goes s t call (.register k ttl) [] s (.finish (.error (.recursive k)))
  | joined {k : Key} {ttl : Int} {c : Creation} :
    s.store.find? k = none → s.pending? k = some c → c.owner ≠ some t →
    Goes s t call (.register k ttl) [.joined k c.id] s (.go (.acquire k ttl c.id))
  | acquired {k : Key} {ttl : Int} {c : Nat} : s.isHeld c = false →
    Goes s t call (.acquire k ttl c) [] (s.hold c t) (.go (.claim k ttl c))
  | claimed {k : Key} {ttl : Int} {c : Nat} : s.isPending k c = true →
    Goes s t call (.claim k ttl c) [.asked (.supply k)] (s.own c t) (.go (.supply k ttl c))
  | stale {k : Key} {ttl : Int} {c : Nat} : s.isPending k c = false →
    Goes s t call (.claim k ttl c) [.retried k c] s (.go (.again k ttl c))
  | supplied {k : Key} {ttl : Int} {c : Nat} (v : Value) :
    Goes s t call (.supply k ttl c) [.replied (.ok v)] s (.go (.insert k c ⟨v, s.clock + ttl⟩))
  | unsupplied {k : Key} {ttl : Int} {c : Nat} (f : Fault) :
    Goes s t call (.supply k ttl c) [.replied (.error f)] s (.go (.withdraw k c (.error f)))
  | inserted {k : Key} {c : Nat} {l : Lease} : s.store.contains k = false →
    Goes s t call (.insert k c l) [.inserted k (s.record l)] (s.put k l)
      (.go (.withdraw k c (.ok (.value l.value))))
  | overwritten {k : Key} {c : Nat} {l : Lease} : s.store.contains k = true →
    Goes s t call (.insert k c l) [.overwritten k (s.record l)] (s.put k l)
      (.go (.withdraw k c (.ok (.value l.value))))
  | withdrawn {k : Key} {c : Nat} {o : Outcome} : s.isPending k c = true →
    Goes s t call (.withdraw k c o) [.withdrawn k c] (s.withdraw c) (.go (.release c o))
  | lost {k : Key} {c : Nat} {o : Outcome} : s.isPending k c = false →
    Goes s t call (.withdraw k c o) [] s (.go (.release c o))
  | released {c : Nat} {o : Outcome} : Goes s t call (.release c o) [] (s.letGo c) (.finish o)
  | retried {k : Key} {ttl : Int} {c : Nat} :
    Goes s t call (.again k ttl c) [] (s.letGo c) (.go (.register k ttl))

inductive Erase.Goes (s : Shared) (call : Nat) :
    Erase → List Happening → Shared → Course Erase → Prop
  | empty {key : Value} : s.store.isEmpty = true → Goes s call (.pop key) [] s (.go .sweep)
  | unkeyed {key : Value} {f : Fault} : s.store.isEmpty = false → key.toKey call = .error f →
    Goes s call (.pop key) [] s (.finish (.error f))
  | missed {key : Value} {k : Key} : key.toKey call = .ok k → s.store.find? k = none →
    Goes s call (.pop key) [] s (.go .sweep)
  | popped {key : Value} {k : Key} {r : Record} :
    key.toKey call = .ok k → s.store.find? k = some r →
    Goes s call (.pop key) [.deleted k r] (s.erase k) (.go (.discard r))
  | disposes {r : Record} : s.policy.disposes = true →
    Goes s call (.discard r) [.asked (.dispose r.value)] s (.go (.disposal r))
  | dropped {r : Record} : s.policy.disposes = false → Goes s call (.discard r) [] s (.go .sweep)
  | disposed {r : Record} (v : Value) :
    Goes s call (.disposal r) [.replied (.ok v)] s (.go .sweep)
  | undisposed {r : Record} (f : Fault) :
    Goes s call (.disposal r) [.replied (.error f)] s (.finish (.error f))
  | sweeps : Goes s call .sweep [] s (.gated .finish)
  | finished : Goes s call .finish [] s (.finish (.ok .unit))

inductive Clear.Goes (s : Shared) : Clear → List Happening → Shared → Course Clear → Prop
  | listed : Goes s .snapshot [] s (.go (.scan ⟨s.store.keys, []⟩))
  | cleared : Goes s (.scan ⟨[], []⟩) [] s (.finish (.ok .unit))
  | failed {xs : List (Value × Fault)} : xs ≠ [] →
    Goes s (.scan ⟨[], xs⟩) [] s (.finish (.error (.disposal xs)))
  | gone {k : Key} {todo : List Key} {xs : List (Value × Fault)} : s.store.find? k = none →
    Goes s (.scan ⟨k :: todo, xs⟩) [] s (.go (.scan ⟨todo, xs⟩))
  | popped {k : Key} {todo : List Key} {xs : List (Value × Fault)} {r : Record} :
    s.store.find? k = some r →
    Goes s (.scan ⟨k :: todo, xs⟩) [.deleted k r] (s.erase k) (.go (.discard ⟨todo, xs⟩ k r))
  | disposes {p : Clearing} {k : Key} {r : Record} : s.policy.disposes = true →
    Goes s (.discard p k r) [.asked (.dispose r.value)] s (.go (.disposal p k r))
  | dropped {p : Clearing} {k : Key} {r : Record} : s.policy.disposes = false →
    Goes s (.discard p k r) [] s (.go (.scan p))
  | disposed {p : Clearing} {k : Key} {r : Record} (v : Value) :
    Goes s (.disposal p k r) [.replied (.ok v)] s (.go (.scan p))
  | gathered {p : Clearing} {k : Key} {r : Record} {f : Fault} : f.isOrdinary = true →
    Goes s (.disposal p k r) [.replied (.error f)] s
      (.go (.scan { p with failures := p.failures ++ [(k.toValue, f)] }))
  | undisposed {p : Clearing} {k : Key} {r : Record} {f : Fault} : f.isOrdinary = false →
    Goes s (.disposal p k r) [.replied (.error f)] s (.finish (.error f))

inductive Sweep.Goes (s : Shared) (t : Tid) :
    Sweep → List Happening → Shared → Course Sweep → Prop
  | begun : Goes s t .begin [] s (.go (.due s.clock))
  | early {now : Int} : now < s.due → Goes s t (.due now) [] s (.finish (.ok (.count 0)))
  | ripe {now : Int} : s.due ≤ now → Goes s t (.due now) [] s (.go (.contend now))
  | barred {now : Int} {u : Tid} : s.gate = some u →
    Goes s t (.contend now) [] s (.finish (.ok (.count 0)))
  | entered {now : Int} : s.gate = none →
    Goes s t (.contend now) [] { s with gate := some t } (.go (.recheck now))
  | forestalled {now : Int} : now < s.due →
    Goes s t (.recheck now) [] { s with gate := none } (.finish (.ok (.count 0)))
  | passed {now : Int} : s.due ≤ now →
    Goes s t (.recheck now) [.passed now] { s with gate := none, due := now + s.interval }
      (.go .snapshot)
  | listed : Goes s t .snapshot [] s (.go (.scan ⟨s.store.keys, 0⟩))
  | idle : Goes s t (.scan ⟨[], 0⟩) [] s (.finish (.ok (.count 0)))
  | swept {n : Nat} :
    Goes s t (.scan ⟨[], n + 1⟩) [.logged (.swept (n + 1))] s (.finish (.ok (.count (n + 1))))
  | gone {k : Key} {todo : List Key} {n : Nat} : s.store.find? k = none →
    Goes s t (.scan ⟨k :: todo, n⟩) [.examined k none] s (.go (.scan ⟨todo, n⟩))
  | examined {k : Key} {todo : List Key} {n : Nat} {r : Record} : s.store.find? k = some r →
    Goes s t (.scan ⟨k :: todo, n⟩) [.examined k r] s (.go (.judge ⟨todo, n⟩ k r))
  | live {p : Pass} {k : Key} {r : Record} : r.expired s.clock = false →
    Goes s t (.judge p k r) [.judged k r s.clock] s (.go (.scan p))
  | checks {p : Pass} {k : Key} {r : Record} : r.expired s.clock = true →
    s.policy.checks = true →
    Goes s t (.judge p k r) [.judged k r s.clock, .asked (.check r.value)] s
      (.go (.approval p k r))
  | approves {p : Pass} {k : Key} {r : Record} : r.expired s.clock = true →
    s.policy.checks = false →
    Goes s t (.judge p k r) [.judged k r s.clock] s (.go (.settle p k r))
  | approved {p : Pass} {k : Key} {r : Record} {v : Value} : v.isTrue = true →
    Goes s t (.approval p k r) [.replied (.ok v)] s (.go (.settle p k r))
  | declined {p : Pass} {k : Key} {r : Record} {v : Value} : v.isTrue = false →
    Goes s t (.approval p k r) [.replied (.ok v)] s (.go (.scan p))
  | unapproved {p : Pass} {k : Key} {r : Record} (f : Fault) :
    Goes s t (.approval p k r) [.replied (.error f)] s (.finish (.error f))
  | saved {p : Pass} {k : Key} {r : Record} : s.isStored k r = false →
    Goes s t (.settle p k r) [] s (.go (.scan p))
  | deleted {p : Pass} {k : Key} {r : Record} : s.isStored k r = true →
    Goes s t (.settle p k r) [.deleted k r] (s.erase k) (.go (.discard p k r))
  | disposes {p : Pass} {k : Key} {r : Record} : s.policy.disposes = true →
    Goes s t (.discard p k r) [.asked (.dispose r.value)] s (.go (.disposal p k r))
  | dropped {p : Pass} {k : Key} {r : Record} : s.policy.disposes = false →
    Goes s t (.discard p k r) [] s (.go (.scan p.count))
  | disposed {p : Pass} {k : Key} {r : Record} (v : Value) :
    Goes s t (.disposal p k r) [.replied (.ok v)] s (.go (.scan p.count))
  | isolated {p : Pass} {k : Key} {r : Record} {f : Fault} : f.isOrdinary = true →
    Goes s t (.disposal p k r) [.replied (.error f), .logged (.disposalFailed k f)] s
      (.go (.scan p.count))
  | undisposed {p : Pass} {k : Key} {r : Record} {f : Fault} : f.isOrdinary = false →
    Goes s t (.disposal p k r) [.replied (.error f)] s (.finish (.error f))

/-- A call's turn: by a step of its own, or because its callback ends. -/
inductive Point.Goes (s : Shared) (t : Tid) (call : Nat) :
    Point → List Happening → Shared → Course Point → Prop
  | fetch {f : Fetch} {hs : List Happening} {s' : Shared} {c : Course Fetch} :
    f.Goes s t call hs s' c → Goes s t call (.fetch f) hs s' (c.map .fetch)
  | erase {e : Erase} {hs : List Happening} {s' : Shared} {c : Course Erase} :
    e.Goes s call hs s' c → Goes s t call (.erase e) hs s' (c.map .erase)
  | clear {e : Clear} {hs : List Happening} {s' : Shared} {c : Course Clear} :
    e.Goes s hs s' c → Goes s t call (.clear e) hs s' (c.map .clear)
  | sweep {w : Sweep} {hs : List Happening} {s' : Shared} {c : Course Sweep} :
    w.Goes s t hs s' c → Goes s t call (.sweep w) hs s' (c.map .sweep)
  | size : Goes s t call .size [] s (.finish (.ok (.count s.store.size)))
  | listing : Goes s t call .listing [] s (.finish (.ok (.listing s.store.toList)))
  | interval : Goes s t call .interval [] s (.finish (.ok (.nanos s.interval)))
  | refused {ns : Value} {f : Fault} : ns.toInteger = .error f →
    Goes s t call (.setInterval ns) [] s (.finish (.error f))
  | set {ns : Value} {n : Int} : ns.toInteger = .ok n →
    Goes s t call (.setInterval ns) [] { s with interval := n } (.go .restart)
  | restarted : Goes s t call .restart [] { s with due := s.clock + s.interval }
    (.finish (.ok .unit))

theorem Fetch.goes_of_step {s : Shared} {t : Tid} {call : Nat} {f : Fetch} {turn : Turn Fetch}
    (h : f.step s t call = some turn) : f.Goes s t call turn.happened turn.shared turn.course := by
  revert h
  fun_cases Fetch.step s t call f <;> rintro ⟨⟩
  case case8 hr _ hp ho => exact .recursive hr hp ho
  case case15 k c l what =>
    cases hk : s.store.contains k with
    | false =>
      simp only [what, hk]
      exact .inserted hk
    | true =>
      simp only [what, hk]
      exact .overwritten hk
  all_goals constructor <;> simp_all

theorem Fetch.goes_of_reply {s : Shared} {t : Tid} {call : Nat} {f : Fetch} {r : Reply}
    {turn : Turn Fetch} (h : f.reply s r = some turn) :
    f.Goes s t call (.replied r :: turn.happened) turn.shared turn.course := by
  revert h
  fun_cases Fetch.reply s f r <;> rintro ⟨⟩ <;> constructor

theorem Erase.goes_of_step {s : Shared} {call : Nat} {e : Erase} {turn : Turn Erase}
    (h : e.step s call = some turn) : e.Goes s call turn.happened turn.shared turn.course := by
  revert h
  fun_cases Erase.step s call e <;> rintro ⟨⟩
  case case3 hk hr => exact .missed hk hr
  all_goals constructor <;> simp_all

theorem Erase.goes_of_reply {s : Shared} {call : Nat} {e : Erase} {r : Reply} {turn : Turn Erase}
    (h : e.reply s r = some turn) :
    e.Goes s call (.replied r :: turn.happened) turn.shared turn.course := by
  revert h
  fun_cases Erase.reply s e r <;> rintro ⟨⟩ <;> constructor

theorem Clear.goes_of_step {s : Shared} {e : Clear} {turn : Turn Clear}
    (h : e.step s = some turn) : e.Goes s turn.happened turn.shared turn.course := by
  revert h
  fun_cases Clear.step s e <;> rintro ⟨⟩
  case case3 h => exact .failed h
  all_goals constructor <;> simp_all

theorem Clear.goes_of_reply {s : Shared} {e : Clear} {r : Reply} {turn : Turn Clear}
    (h : e.reply s r = some turn) :
    e.Goes s (.replied r :: turn.happened) turn.shared turn.course := by
  revert h
  fun_cases Clear.reply s e r <;> rintro ⟨⟩ <;> constructor <;> simp_all

theorem Sweep.goes_of_step {s : Shared} {t : Tid} {w : Sweep} {turn : Turn Sweep}
    (h : w.step s t = some turn) : w.Goes s t turn.happened turn.shared turn.course := by
  revert h
  fun_cases Sweep.step s t w <;> rintro ⟨⟩
  case case4 h => exact .barred h
  all_goals constructor <;> simp_all

theorem Sweep.goes_of_reply {s : Shared} {t : Tid} {w : Sweep} {r : Reply} {turn : Turn Sweep}
    (h : w.reply s r = some turn) :
    w.Goes s t (.replied r :: turn.happened) turn.shared turn.course := by
  revert h
  fun_cases Sweep.reply s w r <;> rintro ⟨⟩
  case case1 v =>
    cases hv : v.isTrue with
    | false => exact .declined hv
    | true => exact .approved hv
  all_goals constructor <;> simp_all

namespace Point

theorem goes_of_step {s : Shared} {t : Tid} {call : Nat} {p : Point} {turn : Turn Point}
    (h : p.step s t call = some turn) : p.Goes s t call turn.happened turn.shared turn.course := by
  cases p with
  | fetch f =>
    obtain ⟨turn, hx, rfl⟩ := Option.map_eq_some_iff.1 h
    exact .fetch (Fetch.goes_of_step hx)
  | erase e =>
    obtain ⟨turn, hx, rfl⟩ := Option.map_eq_some_iff.1 h
    exact .erase (Erase.goes_of_step hx)
  | clear c =>
    obtain ⟨turn, hx, rfl⟩ := Option.map_eq_some_iff.1 h
    exact .clear (Clear.goes_of_step hx)
  | sweep w =>
    obtain ⟨turn, hx, rfl⟩ := Option.map_eq_some_iff.1 h
    exact .sweep (Sweep.goes_of_step hx)
  | setInterval ns =>
    simp only [step] at h
    split at h <;> cases h
    · exact .refused ‹_›
    · exact .set ‹_›
  | done o => cases h
  | _ =>
    cases h
    constructor

theorem goes_of_reply {s : Shared} {t : Tid} {call : Nat} {p : Point} {r : Reply}
    {turn : Turn Point} (h : p.reply s r = some turn) :
    p.Goes s t call (.replied r :: turn.happened) turn.shared turn.course := by
  cases p with
  | fetch f =>
    obtain ⟨turn, hx, rfl⟩ := Option.map_eq_some_iff.1 h
    exact .fetch (Fetch.goes_of_reply hx)
  | erase e =>
    obtain ⟨turn, hx, rfl⟩ := Option.map_eq_some_iff.1 h
    exact .erase (Erase.goes_of_reply hx)
  | clear c =>
    obtain ⟨turn, hx, rfl⟩ := Option.map_eq_some_iff.1 h
    exact .clear (Clear.goes_of_reply hx)
  | sweep w =>
    obtain ⟨turn, hx, rfl⟩ := Option.map_eq_some_iff.1 h
    exact .sweep (Sweep.goes_of_reply hx)
  | _ => cases h

end Point

end Lapse
