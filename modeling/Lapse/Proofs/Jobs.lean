import Lapse.Proofs.Custody
import Lapse.Proofs.Equality
import Lapse.Proofs.Fetching

namespace Lapse

inductive Job
  | fetch (key ttl : Value) (supplier : Value → Reply)
  | erase (key : Value)

inductive Request
  | supply (key : Value)
  | dispose (v : Value)

def Happening.request? : Happening → Option Request
  | asked (.supply k) => some (.supply k.toValue)
  | asked (.dispose v) => some (.dispose v)
  | _ => none

def requests (es : List Timed) : List Request := es.filterMap (·.what.request?)

structure Upshot where
  outcome : Outcome
  requests : List Request
  lease : Option Lease

namespace Job

def key : Job → Value
  | fetch key _ _ => key
  | erase key => key

def op : Job → Op
  | fetch key ttl _ => .fetch key ttl
  | erase key => .erase key

def answer (disposal : Value → Reply) : Job → Ask → Reply
  | fetch _ _ supplier, .supply k => supplier k.toValue
  | _, .dispose v => disposal v
  | _, _ => .ok .null

end Job

structure Setting where
  policy : Policy
  now : Int
  disposal : Value → Reply

namespace Job

/-- What a job comes to that finds so much under its key. The callbacks are shown the key as a
value; what cannot be hashed is none. -/
def upshot (g : Setting) (shown : Except Fault Value) (before : Option Lease) : Job → Upshot
  | fetch _ ttl supplier =>
    match ttl.toInteger, shown, before with
    | .error f, _, _ => ⟨.error f, [], before⟩
    | .ok _, .error f, _ => ⟨.error f, [], before⟩
    | .ok n, .ok _, some l => ⟨.ok (.value l.value), [], some (l.renewed g.now n)⟩
    | .ok n, .ok k, none =>
      match supplier k with
      | .ok v => ⟨.ok (.value v), [.supply k], some ⟨v, g.now + n⟩⟩
      | .error f => ⟨.error f, [.supply k], none⟩
  | erase _ =>
    match before with
    | none => ⟨.ok .unit, [], none⟩
    | some l =>
      if g.policy.disposes then
        match g.disposal l.value with
        | .ok _ => ⟨.ok .unit, [.dispose l.value], none⟩
        | .error f => ⟨.error f, [.dispose l.value], none⟩
      else ⟨.ok .unit, [], none⟩

end Job

namespace Shared

def lease? (s : Shared) (k : Key) : Option Lease := (s.store.find? k).map (·.toLease)

def creation? (s : Shared) (k : Key) : Option Nat := (s.pending? k).map (·.id)

def leaseOf (s : Shared) (x : Except Fault Key) : Option Lease := x.toOption.bind s.lease?

def creationOf (s : Shared) (x : Except Fault Key) : Option Nat := x.toOption.bind s.creation?

structure Fits (g : Setting) (s : Shared) : Prop where
  policy : s.policy = g.policy
  clock : s.clock = g.now

end Shared

structure Upshot.Holds (u : Upshot) (found : Option Lease) (asked : List Request) (o : Outcome) :
    Prop where
  outcome : o = u.outcome
  lease : found = u.lease
  requests : asked = u.requests

def Fetch.Stage (key ttl : Value) (x : Except Fault Key) (before : Option Lease) (u : Upshot)
    (found : Option Lease) (asked : List Request) : Fetch → Prop
  | coerce key' ttl' => key' = key ∧ ttl' = ttl ∧ found = before ∧ asked = []
  | lookup key' n => key' = key ∧ ttl.toInteger = .ok n ∧ found = before ∧ asked = []
  | register k n =>
    x = .ok k ∧ ttl.toInteger = .ok n ∧ before = none ∧ found = none ∧ asked = []
  | acquire k n _ =>
    x = .ok k ∧ ttl.toInteger = .ok n ∧ before = none ∧ found = none ∧ asked = []
  | claim k n _ =>
    x = .ok k ∧ ttl.toInteger = .ok n ∧ before = none ∧ found = none ∧ asked = []
  | supply k n _ =>
    x = .ok k ∧ ttl.toInteger = .ok n ∧ before = none ∧ found = none ∧ asked = [.supply k.toValue]
  | insert k _ l => x = .ok k ∧ before = none ∧ found = none ∧
    u.Holds (some l) asked (.ok (.value l.value))
  | withdraw k _ o => x = .ok k ∧ u.Holds found asked o
  | release _ o => u.Holds found asked o
  | again .. => False

def Erase.Stage (disposes : Bool) (key : Value) (before : Option Lease) (u : Upshot)
    (found : Option Lease) (asked : List Request) : Erase → Prop
  | pop key' => key' = key ∧ found = before ∧ asked = []
  | discard r => before = some r.toLease ∧ found = none ∧ asked = []
  | disposal r =>
    disposes = true ∧ before = some r.toLease ∧ found = none ∧ asked = [.dispose r.value]
  | sweep => u.Holds found asked (.ok .unit)
  | finish => u.Holds found asked (.ok .unit)

/-- Where a job may stand that works under the key. What is removed can be hashed: whether anything
else is refused depends on what other keys there are. -/
def Job.Stage (g : Setting) (j : Job) (x : Except Fault Key) (before found : Option Lease)
    (asked : List Request) : Point → Prop
  | .fetch f => ∃ key ttl supplier, j = .fetch key ttl supplier ∧
    f.Stage key ttl x before (j.upshot g (x.map Key.toValue) before) found asked
  | .erase e => ∃ key k, j = .erase key ∧ x = .ok k ∧
    e.Stage g.policy.disposes key before (j.upshot g (x.map Key.toValue) before) found asked
  | .done o => (j.upshot g (x.map Key.toValue) before).Holds found asked o
  | _ => False

namespace Shared

variable {s : Shared} {k k' : Key} {a : Nat}

@[simp] theorem leaseOf_ok (s : Shared) (k : Key) : s.leaseOf (.ok k) = s.lease? k := rfl

@[simp] theorem creationOf_ok (s : Shared) (k : Key) : s.creationOf (.ok k) = s.creation? k := rfl

theorem leaseOf_congr {s s' : Shared} {x : Except Fault Key}
    (h : ∀ k, x = .ok k → s'.lease? k = s.lease? k) : s'.leaseOf x = s.leaseOf x := by
  cases x with
  | error f => rfl
  | ok k => exact h k rfl

theorem creationOf_congr {s s' : Shared} {x : Except Fault Key}
    (h : ∀ k, x = .ok k → s'.creation? k = s.creation? k) : s'.creationOf x = s.creationOf x := by
  cases x with
  | error f => rfl
  | ok k => exact h k rfl

theorem exists_of_creationOf {s : Shared} {x : Except Fault Key} {a : Nat}
    (h : s.creationOf x = some a) : ∃ k, x = .ok k ∧ s.creation? k = some a := by
  cases x with
  | error f => cases h
  | ok k => exact ⟨k, rfl, h⟩

theorem lease?_put (s : Shared) (k : Key) (l : Lease) : (s.put k l).lease? k = some l := by
  have hfind : (s.put k l).store.find? k = some (s.record l) := by
    simp only [put, Store.put]
    split
    · rename_i h
      obtain ⟨r, hr⟩ := Option.isSome_iff_exists.1 ((s.store.find?_isSome k).trans h)
      simp [Store.find?_replace, hr]
    · rename_i h
      simp [Store.find?_append, Store.find?_eq_none_iff.2 (Bool.eq_false_iff.2 h)]
  rw [lease?, hfind]
  rfl

theorem lease?_erase (s : Shared) (k : Key) : (s.erase k).lease? k = none := by
  simp [lease?, erase, Store.find?_erase]

theorem find?_of_lease? (h : s.lease? k = none) : s.store.find? k = none := by
  simpa [lease?] using h

theorem isPending_iff_creation? : s.isPending k a = true ↔ s.creation? k = some a := by
  simp [isPending_iff, creation?]

theorem creation?_create (h : s.creation? k = none) : (s.create k).creation? k = some s.fresh := by
  have h : s.pending? k = none := by simpa [creation?] using h
  simp only [pending?] at h
  simp [creation?, pending?, create, h]

theorem creation?_create_of_apart (s : Shared) (h : k'.same k = false) :
    (s.create k').creation? k = s.creation? k := by
  simp [creation?, pending?, create, h]

@[simp] theorem creation?_own (s : Shared) (a : Nat) (t : Tid) (k : Key) :
    (s.own a t).creation? k = s.creation? k := by
  simp only [creation?, pending?_own, Option.map_map]
  congr 1
  funext x
  simp only [Function.comp]
  split <;> rfl

theorem creation?_withdraw (hs : s.OnePerKey) (h : s.creation? k = some a) :
    (s.withdraw a).creation? k = none := by
  simp only [creation?, Option.map_eq_none_iff]
  cases hx : (s.withdraw a).pending? k with
  | none => rfl
  | some x =>
    obtain ⟨hmem, hkey⟩ := mem_of_pending? hx
    obtain ⟨hmem, hne⟩ := mem_withdraw.1 hmem
    exact absurd (hs.id_of_isPending (isPending_iff_creation?.2 h) hmem hkey) hne

theorem creation?_withdraw_of_ne (h : s.creation? k ≠ some a) :
    (s.withdraw a).creation? k = s.creation? k := by
  cases hb : s.creation? k with
  | some b =>
    rw [hb, Option.some_inj.ne] at h
    exact isPending_iff_creation?.1
      (isPending_withdraw (Ne.symm h) (isPending_iff_creation?.2 hb))
  | none =>
    simp only [creation?, Option.map_eq_none_iff] at hb ⊢
    cases hx : (s.withdraw a).pending? k with
    | none => rfl
    | some x =>
      obtain ⟨hmem, hkey⟩ := mem_of_pending? hx
      simp only [pending?, List.find?_eq_none] at hb
      exact absurd hkey (hb x (mem_withdraw.1 hmem).1)

end Shared

section

variable {g : Setting} {s s' : Shared} {t : Tid} {c : Nat} {x : Except Fault Key}
  {before : Option Lease} {u : Upshot} {asked : List Request} {hs : List Happening}

theorem Fetch.Goes.stage {f : Fetch} {course : Course Fetch} (h : f.Goes s t c hs s' course)
    {key ttl : Value} {supplier : Value → Reply} (hfits : s.Fits g) (hkey : key.toKey c = x)
    (hst : f.Stage key ttl x before
      ((Job.fetch key ttl supplier).upshot g (x.map Key.toValue) before) (s.leaseOf x) asked)
    (hp : s.creationOf x = f.tends?) (hone : s.OnePerKey)
    (hr : ∀ r, hs = [.replied r] → ∀ a, f.ask? = some a →
      r = (Job.fetch key ttl supplier).answer g.disposal a) :
    (Job.fetch key ttl supplier).Stage g x before (s'.leaseOf x)
        (asked ++ hs.filterMap Happening.request?) (course.map .fetch).next ∧
      s'.creationOf x = (course.map .fetch).next.tends? := by
  cases h with
  | refused httl =>
    obtain ⟨rfl, rfl, hfound, rfl⟩ := hst
    exact ⟨⟨by simp [Job.upshot, httl], by simp [Job.upshot, httl, hfound],
      by simp [Job.upshot, httl]⟩, hp⟩
  | coerced httl =>
    obtain ⟨rfl, rfl, hfound, rfl⟩ := hst
    exact ⟨⟨_, _, _, rfl, rfl, httl, hfound, rfl⟩, hp⟩
  | @unkeyed _ _ f hk =>
    obtain ⟨rfl, hn, hfound, rfl⟩ := hst
    obtain rfl : .error f = x := hk.symm.trans hkey
    exact ⟨⟨by simp [Job.upshot, hn, Except.map], by simp [Job.upshot, hn, Except.map, hfound],
      by simp [Job.upshot, hn, Except.map]⟩, hp⟩
  | @found _ ttl' k r hk hr' =>
    obtain ⟨rfl, hn, hfound, rfl⟩ := hst
    obtain rfl : .ok k = x := hk.symm.trans hkey
    have hb : before = some r.toLease := by
      rw [← hfound, Shared.leaseOf_ok, Shared.lease?, hr']; rfl
    subst hb
    refine ⟨⟨?_, ?_, ?_⟩, hp⟩
    · simp [Job.upshot, hn, Except.map]
    · simp [Job.upshot, hn, Except.map, Shared.lease?_put, hfits.clock]
    · simp [Job.upshot, hn, Except.map, Happening.request?]
  | @missed _ ttl' k hk hr' =>
    obtain ⟨rfl, hn, hfound, rfl⟩ := hst
    obtain rfl : .ok k = x := hk.symm.trans hkey
    have hnone : s.leaseOf (.ok k) = none := by rw [Shared.leaseOf_ok, Shared.lease?, hr']; rfl
    exact ⟨⟨_, _, _, rfl, rfl, hn, hfound.symm.trans hnone, hnone, rfl⟩, hp⟩
  | foundLate hr' =>
    obtain ⟨rfl, -, -, hfound, -⟩ := hst
    cases hr'.symm.trans (Shared.find?_of_lease? hfound)
  | created hr' _ =>
    obtain ⟨rfl, hn, hb, hfound, rfl⟩ := hst
    exact ⟨⟨_, _, _, rfl, rfl, hn, hb, hfound, rfl⟩, Shared.creation?_create hp⟩
  | recursive _ hx _ =>
    obtain ⟨rfl, -⟩ := hst
    simp [Shared.creation?, hx, Fetch.tends?] at hp
  | joined _ hx _ =>
    obtain ⟨rfl, -⟩ := hst
    simp [Shared.creation?, hx, Fetch.tends?] at hp
  | acquired _ =>
    obtain ⟨rfl, hn, hb, hfound, rfl⟩ := hst
    exact ⟨⟨_, _, _, rfl, rfl, hn, hb, hfound, rfl⟩, hp⟩
  | claimed _ =>
    obtain ⟨rfl, hn, hb, hfound, rfl⟩ := hst
    exact ⟨⟨_, _, _, rfl, rfl, hn, hb, hfound, rfl⟩, (Shared.creation?_own ..).trans hp⟩
  | stale hpend =>
    obtain ⟨rfl, -⟩ := hst
    simp [Shared.isPending_iff_creation?.2 hp] at hpend
  | supplied v =>
    obtain ⟨rfl, hn, rfl, hfound, rfl⟩ := hst
    have hv := hr _ rfl _ rfl
    simp only [Job.answer] at hv
    refine ⟨⟨_, _, _, rfl, rfl, rfl, hfound, ?_⟩, hp⟩
    constructor <;> simp [Job.upshot, hn, Except.map, ← hv, hfits.clock, Happening.request?]
  | unsupplied y =>
    obtain ⟨rfl, hn, rfl, hfound, rfl⟩ := hst
    have hy := hr _ rfl _ rfl
    simp only [Job.answer] at hy
    refine ⟨⟨_, _, _, rfl, rfl, ?_⟩, hp⟩
    constructor <;> simp [Job.upshot, hn, Except.map, ← hy, hfound, Happening.request?]
  | inserted _ =>
    obtain ⟨rfl, -, -, hu⟩ := hst
    refine ⟨⟨_, _, _, rfl, rfl, hu.outcome, ?_, ?_⟩, hp⟩
    · rw [Shared.leaseOf_ok, Shared.lease?_put, hu.lease]
    · exact (List.append_nil _).trans hu.requests
  | overwritten hc =>
    obtain ⟨rfl, -, hfound, -⟩ := hst
    simp [Store.find?_eq_none_iff.1 (Shared.find?_of_lease? hfound)] at hc
  | withdrawn _ =>
    obtain ⟨rfl, hu⟩ := hst
    refine ⟨⟨_, _, _, rfl, hu.outcome, hu.lease, ?_⟩, Shared.creation?_withdraw hone hp⟩
    exact (List.append_nil _).trans hu.requests
  | lost hpend =>
    obtain ⟨rfl, -⟩ := hst
    simp [Shared.isPending_iff_creation?.2 hp] at hpend
  | released => exact ⟨⟨hst.outcome, hst.lease, (List.append_nil _).trans hst.requests⟩, hp⟩
  | retried => exact hst.elim

theorem Erase.Goes.stage {e : Erase} {course : Course Erase} (h : e.Goes s c hs s' course)
    {key : Value} {k : Key} (hfits : s.Fits g) (hkey : key.toKey c = .ok k)
    (hst : e.Stage g.policy.disposes key before
      ((Job.erase key).upshot g (.ok k.toValue) before) (s.lease? k) asked)
    (hr : ∀ r, hs = [.replied r] → ∀ a, e.ask? = some a → r = (Job.erase key).answer g.disposal a) :
    (Job.erase key).Stage g (.ok k) before (s'.lease? k)
        (asked ++ hs.filterMap Happening.request?) (course.map .erase).next ∧
      s'.creation? k = s.creation? k := by
  have missed (hb : before = none) : ((Job.erase key).upshot g (.ok k.toValue) before).Holds none []
      (.ok .unit) := by
    subst hb
    constructor <;> rfl
  cases h with
  | empty he =>
    obtain ⟨rfl, hfound, rfl⟩ := hst
    have hnone : s.lease? k = none := by
      simp only [Store.isEmpty, List.isEmpty_iff] at he
      simp [Shared.lease?, Store.find?, he]
    have hu := missed (hfound.symm.trans hnone)
    exact ⟨⟨_, _, rfl, rfl, hu.outcome, hnone.trans hu.lease, hu.requests⟩, rfl⟩
  | unkeyed _ hk =>
    obtain ⟨rfl, -⟩ := hst
    cases hk.symm.trans hkey
  | @missed _ k' hk hr' =>
    obtain ⟨rfl, hfound, rfl⟩ := hst
    obtain rfl : k' = k := Except.ok.inj (hk.symm.trans hkey)
    have hnone : s.lease? k' = none := by rw [Shared.lease?, hr']; rfl
    have hu := missed (hfound.symm.trans hnone)
    exact ⟨⟨_, _, rfl, rfl, hu.outcome, hnone.trans hu.lease, hu.requests⟩, rfl⟩
  | @popped _ k' r hk hr' =>
    obtain ⟨rfl, hfound, rfl⟩ := hst
    obtain rfl : k' = k := Except.ok.inj (hk.symm.trans hkey)
    refine ⟨⟨_, _, rfl, rfl, ?_, Shared.lease?_erase s k', rfl⟩, rfl⟩
    rw [← hfound, Shared.lease?, hr']
    rfl
  | disposes hd =>
    obtain ⟨hb, hfound, rfl⟩ := hst
    exact ⟨⟨_, _, rfl, rfl, hfits.policy ▸ hd, hb, hfound, rfl⟩, rfl⟩
  | dropped hd =>
    obtain ⟨rfl, hfound, rfl⟩ := hst
    refine ⟨⟨_, _, rfl, rfl, ?_⟩, rfl⟩
    constructor <;> simp [Job.upshot, ← hfits.policy, hd, hfound]
  | disposed v =>
    obtain ⟨hd, rfl, hfound, rfl⟩ := hst
    have hv := hr _ rfl _ rfl
    simp only [Job.answer] at hv
    refine ⟨⟨_, _, rfl, rfl, ?_⟩, rfl⟩
    constructor <;> simp [Job.upshot, hd, ← hv, hfound, Happening.request?]
  | undisposed f =>
    obtain ⟨hd, rfl, hfound, rfl⟩ := hst
    have hf := hr _ rfl _ rfl
    simp only [Job.answer] at hf
    refine ⟨?_, rfl⟩
    constructor <;> simp [Job.upshot, hd, ← hf, hfound, Happening.request?]
  | sweeps =>
    obtain ⟨ho, hl, hq⟩ := hst
    exact ⟨⟨_, _, rfl, rfl, ho, hl, (List.append_nil _).trans hq⟩, rfl⟩
  | finished =>
    obtain ⟨ho, hl, hq⟩ := hst
    exact ⟨⟨ho, hl, (List.append_nil _).trans hq⟩, rfl⟩

theorem Point.Goes.stage {p : Point} {course : Course Point} {j : Job}
    (h : p.Goes s t c hs s' course) (hfits : s.Fits g) (hkey : j.key.toKey c = x)
    (hst : j.Stage g x before (s.leaseOf x) asked p) (hp : s.creationOf x = p.tends?)
    (hone : s.OnePerKey)
    (hr : ∀ r, hs = [.replied r] → ∀ a, p.ask? = some a → r = j.answer g.disposal a) :
    j.Stage g x before (s'.leaseOf x) (asked ++ hs.filterMap Happening.request?) course.next ∧
      s'.creationOf x = course.next.tends? := by
  cases h with
  | fetch h =>
    obtain ⟨key, ttl, supplier, rfl, hst⟩ := hst
    exact h.stage hfits hkey hst hp hone hr
  | @erase e _ _ course h =>
    obtain ⟨key, k, rfl, rfl, hst⟩ := hst
    obtain ⟨hst', hc⟩ := h.stage hfits hkey hst hr
    refine ⟨hst', hc.trans (hp.trans ?_)⟩
    cases course <;> rfl
  | _ => exact hst.elim

inductive Store.Touched (x : Except Fault Key) (before : Option Lease) (s : Store) : Store → Prop
  | same : Touched x before s s
  | replaced {k : Key} (r : Record) : x = .ok k → s.contains k = true →
    Touched x before s (s.replace k r)
  | appended {k : Key} (r : Record) : x = .ok k → s.contains k = false → before = none →
    Touched x before s (s.append k r)
  | erased {k : Key} : x = .ok k → Touched x before s (s.erase k)

theorem Store.Touched.find? {k : Key} {s s' : Store} (h : s.Touched x before s')
    (hne : ∀ k', x = .ok k' → k'.same k = false) : s'.find? k = s.find? k := by
  cases h with
  | same => rfl
  | replaced _ hx => simp [Store.find?_replace, hne _ hx]
  | appended _ hx => simp [Store.find?_append, hne _ hx]
  | erased hx => simp [Store.find?_erase, hne _ hx]

theorem Point.Goes.touched {p : Point} {course : Course Point} {j : Job}
    (h : p.Goes s t c hs s' course) (hkey : j.key.toKey c = x)
    (hst : j.Stage g x before (s.leaseOf x) asked p) :
    s.store.Touched x before s'.store := by
  cases h with
  | fetch h =>
    obtain ⟨key, ttl, supplier, rfl, hst⟩ := hst
    cases h with
    | found hk hr =>
      obtain ⟨rfl, -⟩ := hst
      have hc := Store.contains_of_find? hr
      rw [Shared.put, Store.put_of_contains hc]
      exact .replaced _ (hkey.symm.trans hk) hc
    | foundLate hr =>
      obtain ⟨rfl, -, -, hfound, -⟩ := hst
      cases hr.symm.trans (Shared.find?_of_lease? hfound)
    | inserted hc =>
      obtain ⟨rfl, hb, -⟩ := hst
      rw [Shared.put, Store.put_of_not_contains hc]
      exact .appended _ rfl hc hb
    | overwritten hc =>
      obtain ⟨rfl, -, hfound, -⟩ := hst
      simp [Store.find?_eq_none_iff.1 (Shared.find?_of_lease? hfound)] at hc
    | _ => exact .same
  | erase h =>
    obtain ⟨key, k, rfl, rfl, hst⟩ := hst
    cases h with
    | popped hk hr =>
      obtain ⟨rfl, -⟩ := hst
      exact .erased (hkey.symm.trans hk)
    | _ => exact .same
  | _ => exact hst.elim

theorem Point.Goes.creation?_of_apart {p : Point} {course : Course Point} {j : Job} {k : Key}
    (h : p.Goes s t c hs s' course) (hst : j.Stage g x before (s.leaseOf x) asked p)
    (hne : ∀ k', x = .ok k' → k'.same k = false)
    (hp : ∀ a, p.tends? = some a → s.creation? k ≠ some a) :
    s'.creation? k = s.creation? k := by
  cases h with
  | fetch h =>
    obtain ⟨key, ttl, supplier, rfl, hst⟩ := hst
    cases h with
    | created =>
      obtain ⟨rfl, -⟩ := hst
      exact Shared.creation?_create_of_apart s (hne _ rfl)
    | claimed => exact Shared.creation?_own ..
    | withdrawn => exact Shared.creation?_withdraw_of_ne (hp _ rfl)
    | _ => rfl
  | erase h => cases h <;> rfl
  | _ => exact hst.elim

theorem Point.Goes.due_eq {p : Point} {course : Course Point} {j : Job} {found : Option Lease}
    (h : p.Goes s t c hs s' course) (hst : j.Stage g x before found asked p) : s'.due = s.due := by
  cases h with
  | fetch h => cases h <;> rfl
  | erase h => cases h <;> rfl
  | _ => exact hst.elim

theorem Point.Goes.aside {p : Point} {course : Course Point} {j : Job} {k : Key}
    (h : p.Goes s t c hs s' course) (hkey : j.key.toKey c = x)
    (hst : j.Stage g x before (s.leaseOf x) asked p) (hne : ∀ k', x = .ok k' → k'.same k = false)
    (hp : ∀ a, p.tends? = some a → s.creation? k ≠ some a) :
    s'.lease? k = s.lease? k ∧ s'.creation? k = s.creation? k :=
  ⟨by rw [Shared.lease?, (h.touched hkey hst).find? hne, Shared.lease?],
    h.creation?_of_apart hst hne hp⟩

end

end Lapse
