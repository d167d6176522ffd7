import Lapse.Proofs.Expiry
import Lapse.Proofs.Progress
import Lapse.Proofs.Unscathed

namespace Lapse

def Machine.Supplies (m : Machine) (t : Tid) (k : Key) : Prop :=
  ∃ k' ∈ suppliedIn (m.frames t), k'.same k = true

/-- The fetch is refused as a recursion by itself, after its thread showed this: the fault is not
its sweep's, nor its supplier's. -/
structure Fetch.Objects (c : Nat) (key ttl : Value) (k : Key) (ls : List Timed) (o : Outcome) :
    Prop where
  outcome : o = .error (.recursive k)
  swept : ∀ f l, ¬Resumed c key ttl (.error f) ls l
  supplied : ∀ y ∈ ls, y.call = c → y.what.replied? = none

def Shared.Untouched (s s' : Shared) : Prop := s' = { s with fresh := s'.fresh }

/-- A fetch was called after `es` for a key that its thread is making; `w` are the moves from the
first machine to the second. -/
structure Refused (es : List Timed) (m₀ : Machine) (t : Tid) (key ttl : Value) (k : Key)
    (w : List Move) (m : Machine) : Prop where
  shown : ∀ e ∈ chronicle m₀.shared.clock w, e.call = m₀.shared.fresh →
    e.what = .called (.fetch key ttl) ∨ ∃ o, e.what = .returned o
  turns : Turns Shared.Untouched t m₀.shared.fresh m₀ w
  prompt : ∀ {p a l}, m.Live t m₀.shared.fresh p →
    Fetch.Resumed m₀.shared.fresh key ttl (.ok a) (lane (es ++ chronicle m₀.shared.clock w) t) l →
      ∃ n ≤ 3, m.Raises t m₀.shared.fresh (.recursive k) n
  making : ∀ {p}, m.Live t m₀.shared.fresh p → ∀ {d k' n a},
    ⟨d, .fetch (.supply k' n a)⟩ ∈ m₀.frames t → k'.same k = true →
      m.Live t d (.fetch (.supply k' n a)) ∧ m.shared.OwnedBy k' a t ∧ (a, t) ∈ m.shared.held ∧
        m.shared.store.contains k' = false

structure Detected (start : Machine) (h : List Move) (m : Machine) : Prop where
  exactly : ∀ {g call v ret g' m₀ m₁ m₂ t key ttl o}, h = g ++ call :: (v ++ ret :: g') →
    Run start g m₀ → call.label = .call t (.fetch key ttl) → Run m₀ (call :: v) m₁ →
    m₁.next? ret.label = some (m₂, ret.events) →
    ret.events = [⟨t, m₀.shared.fresh, .returned o⟩] → ∀ k,
      Fetch.Objects m₀.shared.fresh key ttl k
          (lane (chronicle start.shared.clock g ++ chronicle m₀.shared.clock (call :: v)) t) o ↔
        key.toKey m₀.shared.fresh = .ok k ∧
          (∃ a l, Fetch.Resumed m₀.shared.fresh key ttl (.ok a)
            (lane (chronicle start.shared.clock g ++ chronicle m₀.shared.clock (call :: v)) t) l) ∧
          m₀.Supplies t k
  refused : ∀ {g call v g' m₀ m₁ t key ttl k}, h = g ++ call :: (v ++ g') → Run start g m₀ →
    call.label = .call t (.fetch key ttl) → Run m₀ (call :: v) m₁ →
    key.toKey m₀.shared.fresh = .ok k → m₀.Supplies t k →
      Refused (chronicle start.shared.clock g) m₀ t key ttl k (call :: v) m₁
  resumes : ∀ {g call v ret g' m₀ m₁ m₂ t key ttl k}, h = g ++ call :: (v ++ ret :: g') →
    Run start g m₀ → call.label = .call t (.fetch key ttl) → Run m₀ (call :: v) m₁ →
    m₁.next? ret.label = some (m₂, ret.events) →
    ret.events = [⟨t, m₀.shared.fresh, .returned (.error (.recursive k))⟩] →
      m₂.frames t = m₀.frames t ∧ m₂.shared = m₁.shared
  stored : ∀ {y key ttl v}, y ∈ chronicle start.shared.clock h → y.what = .replied (.ok v) →
    CalledFetch (chronicle start.shared.clock h) y.call key ttl →
    ∃ k n r, Fetch.Means y.call key ttl k n ∧ r.toLease = ⟨v, y.clock + n⟩ ∧
      ((∃ z ∈ chronicle start.shared.clock h, z.call = y.call ∧ z.what = .inserted k r) ∨
        ∃ m', m.step? y.thread = some (m', [⟨y.thread, y.call, .inserted k r⟩]) ∧
          m'.shared.store.find? k = some r)

theorem lane_split {es ys zs : List Timed} {t : Tid} {e : Timed} (h : lane es t = ys ++ e :: zs) :
    ∃ pre post, es = pre ++ e :: post ∧ lane pre t = ys ∧ lane post t = zs := by
  obtain ⟨x₁, x₂, rfl, rfl, hx₂⟩ := List.filter_eq_append_iff.1 h
  obtain ⟨x₃, x₄, rfl, hx₃, -, rfl⟩ := List.filter_eq_cons_iff.1 hx₂
  have hnil : lane x₃ t = [] := List.filter_eq_nil_iff.2 hx₃
  exact ⟨x₁ ++ x₃, x₄, by simp, by rw [lane_append, hnil, List.append_nil]; rfl, rfl⟩

namespace Machine

variable {policy : Policy} {clock interval : Int} {m m' : Machine} {es es' : List Timed} {t : Tid}
  {c d d' : Nat} {key ttl : Value} {l l' : List Timed} {o o' : Outcome}

theorem Trace.lane_first (ht : Trace (.start policy clock interval) es m) {p q : List Timed}
    {b : Timed} {op : Op} (hls : lane es t = p ++ b :: q) (hw : b.what = .called op) :
    ∀ x ∈ p, x.call ≠ b.call := by
  intro x hx
  obtain ⟨pre, post, hes, rfl, -⟩ := lane_split hls
  exact ht.call_origin hes hw x (mem_lane.1 hx).1

theorem Trace.lane_last (ht : Trace (.start policy clock interval) es m) {p q : List Timed}
    {e : Timed} (hls : lane es t = p ++ e :: q) (hw : e.what = .returned o) :
    ∀ x ∈ q, x.call ≠ e.call := by
  intro x hx
  obtain ⟨pre, post, hes, -, rfl⟩ := lane_split hls
  exact ht.over hes hw x (mem_lane.1 hx).1

theorem Trace.followed_unique (ht : Trace (.start policy clock interval) es m)
    (h : Fetch.Followed c key ttl d (lane es t) l)
    (h' : Fetch.Followed c key ttl d' (lane es t) l') : d = d' ∧ l = l' := by
  obtain ⟨-, hls, hbc, hbw, hd, -⟩ := h
  obtain ⟨-, hls', hbc', hbw', hd', -⟩ := h'
  obtain ⟨a, rfl, -⟩ | ⟨-, -, htail⟩ | ⟨a, rfl, -⟩ := cons_split_cases (hls.symm.trans hls')
  · exact absurd (hbc.trans hbc'.symm) (ht.lane_first hls' hbw' _ (by simp))
  · obtain ⟨rfl, rfl⟩ := List.cons.inj htail
    exact ⟨hd.symm.trans hd', rfl⟩
  · exact absurd (hbc'.trans hbc.symm) (ht.lane_first hls hbw _ (by simp))

theorem Trace.not_begun (ht : Trace (.start policy clock interval) es m)
    (h : Fetch.Followed c key ttl d (lane es t) l) : ¬Fetch.Begun c key ttl (lane es t) := by
  rintro ⟨q, b', hls', hbc', hbw'⟩
  obtain ⟨-, hls, hbc, hbw, -, -⟩ := h
  obtain ⟨a, rfl, -⟩ | ⟨-, -, htail⟩ | ⟨a, rfl, -⟩ := cons_split_cases (hls.symm.trans hls')
  · exact absurd (hbc.trans hbc'.symm) (ht.lane_first hls' hbw' _ (by simp))
  · cases htail
  · exact absurd (hbc'.trans hbc.symm) (ht.lane_first hls hbw _ (by simp))

theorem Trace.resumed_unique (ht : Trace (.start policy clock interval) es m)
    (h : Fetch.Resumed c key ttl o (lane es t) l)
    (h' : Fetch.Resumed c key ttl o' (lane es t) l') : o = o' := by
  obtain @⟨d, q, e, hf, hec, hew⟩ := h
  obtain @⟨_, q', e', hf', hec', hew'⟩ := h'
  obtain ⟨rfl, htail⟩ := ht.followed_unique hf hf'
  obtain @⟨p, b, b', n, -, hls, -⟩ := hf
  have hls₁ : lane es t = (p ++ b :: b' :: q) ++ e :: l := by simpa using hls
  have hls₂ : lane es t = (p ++ b :: b' :: q') ++ e' :: l' := by simpa [htail] using hls
  obtain ⟨a, -, rfl⟩ | ⟨-, rfl, -⟩ | ⟨a, -, rfl⟩ := cons_split_cases htail
  · exact absurd (hec'.trans hec.symm) (ht.lane_last hls₁ hew _ (by simp))
  · cases hew.symm.trans hew'
    rfl
  · exact absurd (hec.trans hec'.symm) (ht.lane_last hls₂ hew' _ (by simp))

theorem Trace.sweep_over (ht : Trace (.start policy clock interval) es m)
    (h : Fetch.Resumed c key ttl o (lane es t) l) {p : Point}
    (h' : Fetch.Followed c key ttl d (lane es t) l') : ¬m.Live t d p := by
  intro hl
  obtain @⟨_, q, e, hf, hec, hew⟩ := h
  obtain ⟨rfl, -⟩ := ht.followed_unique h' hf
  obtain @⟨p, b, b', n, -, hls, -⟩ := hf
  obtain ⟨op, hstory⟩ := ht.story hl
  have hmem : e ∈ lane es t := by simp [hls]
  have := hstory.not_returned e (mem_trail.2 ⟨(mem_lane.1 hmem).1, hec⟩)
  simp [hew, Happening.returned?] at this

end Machine

def Point.Barred (key : Value) (k : Key) : Point → Prop
  | .fetch (.coerce key' _) => key' = key
  | .fetch (.lookup key' _) => key' = key
  | .fetch (.register k' _) => k' = k
  | .done (.error _) => True
  | _ => False

theorem Point.Goes.barred {s s' : Shared} {t : Tid} {c : Nat} {p : Point} {hs : List Happening}
    {course : Course Point} {key : Value} {k : Key} {x : Creation} (h : p.Goes s t c hs s' course)
    (hp : p.Barred key k) (hk : key.toKey c = .ok k) (hstore : s.store.find? k = none)
    (hx : s.pending? k = some x) (ho : x.owner = some t) :
    course.next.Barred key k ∧ hs = [] ∧ s' = s := by
  cases h with
  | fetch h =>
    cases h with
    | refused => exact ⟨trivial, rfl, rfl⟩
    | coerced => exact ⟨hp, rfl, rfl⟩
    | unkeyed => exact ⟨trivial, rfl, rfl⟩
    | found hkey hr =>
      obtain rfl := hp
      cases hk.symm.trans hkey
      simp [hstore] at hr
    | missed hkey =>
      obtain rfl := hp
      cases hk.symm.trans hkey
      exact ⟨rfl, rfl, rfl⟩
    | foundLate hr =>
      obtain rfl := hp
      simp [hstore] at hr
    | created _ hnone =>
      obtain rfl := hp
      simp [hx] at hnone
    | recursive => exact ⟨trivial, rfl, rfl⟩
    | joined _ hx' hne =>
      obtain rfl := hp
      cases hx.symm.trans hx'
      exact absurd ho hne
    | _ => exact hp.elim
  | _ => exact hp.elim

theorem Point.supply_of_ask {p : Point} {k : Key} (ha : p.ask? = some (.supply k)) :
    ∃ n a, p = .fetch (.supply k n a) := by
  cases p with
  | fetch f =>
    cases f with
    | supply => cases ha; exact ⟨_, _, rfl⟩
    | _ => cases ha
  | erase e => cases e <;> cases ha
  | clear e => cases e <;> cases ha
  | sweep w => cases w <;> cases ha
  | _ => cases ha

namespace Machine

variable {policy : Policy} {clock interval : Int} {m m' : Machine} {es₀ es es' : List Timed}
  {t : Tid} {c : Nat} {p : Point} {key ttl : Value} {k : Key} {fs : List Frame}

theorem Trace.supplying (ht : Trace (.start policy clock interval) es m) {d a : Nat} {n : Int}
    {k' : Key} (hl : m.Live t d (.fetch (.supply k' n a))) (hk : k'.same k = true) :
    m.shared.store.find? k = none ∧ ∃ x, m.shared.pending? k = some x ∧ x.owner = some t := by
  constructor
  · rw [← Store.find?_congr _ hk]
    exact Store.find?_eq_none_iff.2 (ht.account.absent hl rfl)
  · obtain ⟨x, hx, -, ho⟩ := ht.custody.owned hl rfl
    exact ⟨x, by rwa [← Shared.pending?_congr _ hk], ho⟩

theorem Trace.maker (ht : Trace (.start policy clock interval) es₀ m)
    (hf : m.frames t = ⟨c, p⟩ :: fs) (hfs : ∃ k' ∈ suppliedIn fs, k'.same k = true) :
    ∃ d n a k', m.Live t d (.fetch (.supply k' n a)) ∧ k'.same k = true := by
  obtain ⟨k', hk', hsame⟩ := hfs
  obtain ⟨⟨d, q⟩, hmem, hask⟩ := mem_suppliedIn.1 hk'
  obtain ⟨n, a, rfl⟩ := Point.supply_of_ask hask
  exact ⟨d, n, a, k', ((ht.account.numbered.mem_rest hf).1 hmem).1, hsame⟩

structure Barred (t : Tid) (c : Nat) (key ttl : Value) (k : Key) (es : List Timed) (m : Machine) :
    Prop where
  stands : ∀ {u p}, m.Live u c p → u = t ∧ p.Barred key k
  shown : ∀ e ∈ es, e.call = c → e.what = .called (.fetch key ttl) ∨ ∃ o, e.what = .returned o

theorem Trace.barred_turn (ht : Trace (.start policy clock interval) es₀ m)
    (hf : m.frames t = ⟨c, p⟩ :: fs) (hfs : ∃ k' ∈ suppliedIn fs, k'.same k = true)
    (hp : p.Barred key k) (hk : key.toKey c = .ok k) {hs : List Happening} {s : Shared}
    {course : Course Point} (hg : p.Goes m.shared t c hs s course) :
    course.next.Barred key k ∧ hs = [] ∧ s = m.shared := by
  obtain ⟨d, n, a, k', hl, hsame⟩ := ht.maker hf hfs
  obtain ⟨hstore, x, hx, ho⟩ := ht.supplying hl hsame
  exact hg.barred hp hk hstore hx ho

theorem Change.barred (h : Change m es' m') (ht : Trace (.start policy clock interval) es₀ m)
    (hr : m.Rooted t c fs) (hfs : ∃ k' ∈ suppliedIn fs, k'.same k = true)
    (hk : key.toKey c = .ok k) (hc : c < m.shared.fresh) (hb : m.Barred t c key ttl k es) :
    m'.Barred t c key ttl k (es ++ es') := by
  have hn := ht.account.numbered
  have more : ∀ {m' : Machine} {es' : List Timed},
      (∀ {u p}, m'.Live u c p → u = t ∧ p.Barred key k) →
      (∀ e ∈ es', e.call = c → e.what = .called (.fetch key ttl) ∨ ∃ o, e.what = .returned o) →
      m'.Barred t c key ttl k (es ++ es') := fun hs hes =>
    ⟨hs, fun e he => (List.mem_append.1 he).elim (hb.shown e) (hes e)⟩
  cases h with
  | advance ns => exact more hb.stands (by simp)
  | @call u op _ =>
    refine more (fun hl => ?_) fun e he hec => ?_
    · obtain ⟨-, rfl, -⟩ | hl := live_call.1 hl
      · exact absurd hc (Nat.lt_irrefl _)
      · exact hb.stands hl
    · obtain rfl := List.mem_singleton.1 he
      obtain rfl : m.shared.fresh = c := hec
      exact absurd hc (Nat.lt_irrefl _)
  | @turn u d q rest hs s course hf hg =>
    by_cases hd : d = c
    · subst hd
      have hl := live_of_frames hf
      obtain ⟨rfl, hq⟩ := hb.stands hl
      obtain ⟨above, ha⟩ := hr q hl
      obtain ⟨-, rfl⟩ := hn.split_unique hf ha
      obtain ⟨hnext, rfl, rfl⟩ := ht.barred_turn hf hfs hq hk hg
      refine more (fun hl₁ => ?_) (by simp [Shared.tell])
      obtain ⟨rfl, -, rfl⟩ | ⟨hl₁, -⟩ := (hn.live_turn hf).1 hl₁
      · exact ⟨rfl, hnext⟩
      · exact hb.stands hl₁
    · refine more (fun hl => ?_) fun e he hec => ?_
      · obtain ⟨-, rfl, -⟩ | ⟨hl, -⟩ := (hn.live_turn hf).1 hl
        · exact absurd rfl hd
        · exact hb.stands hl
      · obtain ⟨x, -, rfl⟩ := List.mem_map.1 he
        exact absurd hec hd
  | @leave u d o rest hf =>
    refine more (fun hl => hb.stands ((hn.live_leave hf).1 hl).1) fun e he _ => ?_
    obtain rfl := List.mem_singleton.1 he
    exact .inr ⟨o, rfl⟩
  | @fail u d q rest f hf _ =>
    refine more (fun hl => ?_) (by simp)
    obtain ⟨rfl, rfl, rfl⟩ | ⟨hl, -⟩ := (hn.live_turn hf).1 hl
    · exact ⟨(hb.stands (live_of_frames hf)).1, trivial⟩
    · exact hb.stands hl

theorem Trace.barred (h : Trace m es' m') (ht : Trace (.start policy clock interval) es₀ m)
    (hr : m.Rooted t c fs) (hfs : ∃ k' ∈ suppliedIn fs, k'.same k = true)
    (hk : key.toKey c = .ok k) (hc : c < m.shared.fresh) (hb : m.Barred t c key ttl k es) :
    m'.Barred t c key ttl k (es ++ es') := by
  induction h with
  | start => simpa using hb
  | @next es₁ es₂ m₁ m₂ h₁ hch ih =>
    have ht₁ := ht.trans h₁
    have hn := ht.account.numbered
    have hfresh : c < m₁.shared.fresh :=
      h₁.invariant (P := fun m => c < m.shared.fresh)
        (fun hc hch => Nat.lt_of_lt_of_le hc hch.fresh) hc
    rw [← List.append_assoc]
    exact hch.barred ht₁ (h₁.rooted hn hc hr) hfs hk hfresh ih

end Machine

namespace Run

variable {policy : Policy} {clock interval : Int} {g v : List Move} {call : Move}
  {m₀ m₁ : Machine} {t : Tid} {key ttl : Value} {k : Key}

theorem barred (hg : Run (.start policy clock interval) g m₀)
    (hl : call.label = .call t (.fetch key ttl)) (hv : Run m₀ (call :: v) m₁)
    (hk : key.toKey m₀.shared.fresh = .ok k) (hs : m₀.Supplies t k) :
    m₁.Barred t m₀.shared.fresh key ttl k (chronicle m₀.shared.clock (call :: v)) := by
  have ha := hg.trace.account
  obtain ⟨hc, hev, hv'⟩ := begun hl hv
  have hch : m₀.Change _ (m₀.push t (.fetch key ttl) (m₀.frames t)).1 := .call (.inl hc)
  have ht := hg.trace.next hch
  have hchron : chronicle m₀.shared.clock (call :: v) =
      m₀.shared.tell t m₀.shared.fresh [.called (.fetch key ttl)] ++
        chronicle m₀.shared.clock v := by
    simp [chronicle, hev, hl, Label.after, Shared.tell]
  rw [hchron]
  refine (hv'.trace_from ht.account.shaped).barred ht (ha.numbered.rooted _) hs hk
    (Nat.lt_succ_self _) ⟨fun {u p} hlive => ?_, fun e he _ => ?_⟩
  · obtain ⟨rfl, -, rfl⟩ | hlive := Machine.live_call.1 hlive
    · exact ⟨rfl, rfl⟩
    · exact absurd (ha.numbered.bound hlive) (Nat.lt_irrefl _)
  · obtain rfl := List.mem_singleton.1 he
    exact .inl rfl

end Run

namespace Machine

variable {policy : Policy} {clock interval : Int} {m m' : Machine} {es : List Timed} {t : Tid}
  {c : Nat} {p : Point} {key ttl : Value} {k : Key} {fs : List Frame} {l : Label}
  {evs : List Event}

theorem Makes.untouched (h : m.Makes l evs m') (ht : Trace (.start policy clock interval) es m)
    (hd : l.Drives t) (hf : m.frames t = ⟨c, p⟩ :: fs)
    (hfs : ∃ k' ∈ suppliedIn fs, k'.same k = true) (hp : p.Barred key k)
    (hk : key.toKey c = .ok k) : m.shared.Untouched m'.shared := by
  cases h with
  | @turn _ u d q rest hs s course hd' hf' hg _ =>
    have hu := hd.thread.symm.trans hd'.thread
    cases hu
    cases hf.symm.trans hf'
    obtain ⟨-, -, rfl⟩ := ht.barred_turn hf hfs hp hk hg
    rfl
  | advance ns => cases hd
  | _ => rfl

theorem raises_of_register {n : Int} {x : Creation}
    (hf : m.frames t = ⟨c, .fetch (.register k n)⟩ :: fs)
    (hstore : m.shared.store.find? k = none) (hx : m.shared.pending? k = some x)
    (ho : x.owner = some t) : m.Raises t c (.recursive k) 2 := by
  have hstep := step?_of_frames hf (by simp)
  simp only [Point.step, Fetch.step, hstore, hx, ho, if_true] at hstep
  exact (raises_of_done (frames_mk_set ..)).step hstep

theorem raises_of_lookup {n : Int} {x : Creation}
    (hf : m.frames t = ⟨c, .fetch (.lookup key n)⟩ :: fs) (hk : key.toKey c = .ok k)
    (hstore : m.shared.store.find? k = none) (hx : m.shared.pending? k = some x)
    (ho : x.owner = some t) : m.Raises t c (.recursive k) 3 := by
  have hstep := step?_of_frames hf (by simp)
  simp only [Point.step, Fetch.step, hk, hstore] at hstep
  exact (raises_of_register (frames_mk_set ..) hstore hx ho).step hstep

theorem Makes.returned {o : Outcome} (h : m.Makes l [⟨t, c, .returned o⟩] m') :
    ∃ rest, m.frames t = ⟨c, .done o⟩ :: rest := by
  generalize hevs : [(⟨t, c, .returned o⟩ : Event)] = evs at h
  cases h with
  | leave hf _ =>
    cases hevs
    exact ⟨_, hf⟩
  | fail hf _ =>
    cases hevs
    exact ⟨_, hf⟩
  | turn _ _ hp _ =>
    obtain ⟨x, rfl, hx⟩ := List.map_eq_singleton_iff.1 hevs.symm
    cases hx
    exact absurd List.mem_cons_self (hp.inner.2 _)
  | _ => cases hevs

theorem Trace.fault_of_barred (ht : Trace (.start policy clock interval) es m)
    {ls : List Timed} (hls : ls = lane es t) {f : Fault} (h : Fetch.Fails c key ttl f ls fs)
    {a : Answer} {l : List Timed} (hr : Fetch.Resumed c key ttl (.ok a) ls l)
    (hk : key.toKey c = .ok k) (hy : ∀ y ∈ ls, y.call = c → y.what.replied? = none) :
    f = .recursive k := by
  subst hls
  cases h with
  | refused hn _ =>
    obtain ⟨⟨hn', -⟩, -⟩ := hr
    cases hn.symm.trans hn'
  | unswept h => cases ht.resumed_unique h hr
  | unkeyed _ hk' => cases hk.symm.trans hk'
  | recursive _ hk' hf _ _ _ =>
    cases hk.symm.trans hk'
    exact hf
  | unsupplied _ hmem hc hw =>
    have := hy _ hmem hc
    simp [hw, Happening.replied?] at this

end Machine

theorem Value.toInteger_ne_recursive (v : Value) (k : Key) :
    v.toInteger ≠ .error (.recursive k) := by
  cases v with
  | float x =>
    simp only [toInteger, Binary64.toInteger]
    split <;> simp
  | text s =>
    simp only [toInteger]
    split <;> simp
  | _ => simp [toInteger]

theorem Value.toKey_ne_recursive {c : Nat} (v : Value) (k : Key) :
    v.toKey c ≠ .error (.recursive k) := by
  simp only [toKey]
  split <;> simp

def Point.Honours (c : Nat) (key ttl : Value) (l : List Timed) (p : Point) : Prop :=
  ∀ y ∈ l, ∀ v, y.what = .replied (.ok v) → ∃ k n, Fetch.Means c key ttl k n ∧
    ((∃ a, p = .fetch (.insert k a ⟨v, y.clock + n⟩)) ∨
      ∃ z ∈ l, ∃ r : Record, z.what = .inserted k r ∧ r.toLease = ⟨v, y.clock + n⟩)

theorem Fetch.Goes.honours {s s' : Shared} {t : Tid} {c : Nat} {key ttl : Value} {l : List Timed}
    {f : Fetch} {hs : List Happening} {course : Course Fetch} (h : f.Goes s t c hs s' course)
    (hm : ∀ {k}, f.making? = some k → s.store.contains k = false) (ht : f.Tale c key ttl l)
    (hh : Point.Honours c key ttl l (.fetch f)) :
    (course.map .fetch).next.Honours c key ttl (l ++ s.tell t c hs) := by
  -- a turn that brings no value, of a fetch that has none to put
  have keep : ∀ {p : Point}, (∀ k a x, f ≠ .insert k a x) → (∀ v, .replied (.ok v) ∉ hs) →
      p.Honours c key ttl (l ++ s.tell t c hs) := by
    intro p hf hno y hy v hw
    obtain hy | hy := List.mem_append.1 hy
    · obtain ⟨k, n, hmeans, ⟨a, hp⟩ | ⟨z, hz, hput⟩⟩ := hh y hy v hw
      · exact absurd (Point.fetch.inj hp) (hf _ _ _)
      · exact ⟨k, n, hmeans, .inr ⟨z, List.mem_append_left _ hz, hput⟩⟩
    · obtain ⟨x, hx, rfl⟩ := List.mem_map.1 hy
      obtain rfl : x = .replied (.ok v) := hw
      exact absurd hx (hno v)
  cases h with
  | @supplied k n a v =>
    intro y hy v' hw
    obtain hy | hy := List.mem_append.1 hy
    · obtain ⟨k', n', hmeans, ⟨a, hp⟩ | ⟨z, hz, hput⟩⟩ := hh y hy v' hw
      · cases hp
      · exact ⟨k', n', hmeans, .inr ⟨z, List.mem_append_left _ hz, hput⟩⟩
    · obtain rfl := List.mem_singleton.1 hy
      cases hw
      exact ⟨k, n, ht.1, .inl ⟨a, rfl⟩⟩
  | @inserted k a x _ =>
    intro y hy v hw
    obtain hy | hy := List.mem_append.1 hy
    · obtain ⟨k', n, hmeans, ⟨a', hp⟩ | ⟨z, hz, hput⟩⟩ := hh y hy v hw
      · cases hp
        exact ⟨k, n, hmeans, .inr ⟨_, List.mem_append_right _ List.mem_cons_self, _, rfl, rfl⟩⟩
      · exact ⟨k', n, hmeans, .inr ⟨z, List.mem_append_left _ hz, hput⟩⟩
    · obtain rfl := List.mem_singleton.1 hy
      cases hw
  | overwritten hc => simp [hm rfl] at hc
  | _ => exact keep (by simp) (by simp)

namespace Machine

variable {policy : Policy} {clock interval : Int} {m : Machine} {es : List Timed} {t : Tid}
  {c : Nat} {p : Point} {key ttl : Value}

theorem Story.honours (h : Story policy t c (.fetch key ttl) es p) :
    p.Honours c key ttl (trail es c) := by
  induction h with
  | @call m es ha hc =>
    subst hc
    rw [trail_append, ha.trail_fresh, trail_tell]
    intro y hy v hw
    obtain rfl := List.mem_singleton.1 hy
    cases hw
  | @turn m es p hs s course h ha hl hp ih =>
    rw [trail_append, trail_tell]
    have hop := h.admits
    have htale := h.fetches
    cases hp with
    | fetch hf => exact hf.honours (fun hk => ha.absent hl hk) htale ih
    | _ => cases hop
  | @fail es p f h hw ih =>
    intro y hy v hwy
    obtain ⟨k, n, hmeans, ⟨a, rfl⟩ | hput⟩ := ih y hy v hwy
    · cases hw
    · exact ⟨k, n, hmeans, .inr hput⟩
  | others _ ho ih => rwa [trail_append, trail_eq_nil ho, List.append_nil]

theorem step?_of_insert {k : Key} {a : Nat} {x : Lease} {rest : List Frame}
    (hf : m.frames t = ⟨c, .fetch (.insert k a x)⟩ :: rest)
    (hk : m.shared.store.contains k = false) : ∃ m' r,
      m.step? t = some (m', [⟨t, c, .inserted k r⟩]) ∧ r.toLease = x ∧
        m'.shared.store.find? k = some r := by
  have hstep := step?_of_frames hf (by simp)
  simp only [Point.step, Fetch.step, hk] at hstep
  refine ⟨_, _, hstep, rfl, ?_⟩
  change (m.shared.store.put k (m.shared.record x)).find? k = some (m.shared.record x)
  rw [Store.put_of_not_contains hk, Store.find?_append, Store.find?_eq_none_iff.2 hk]
  simp

theorem Trace.honoured (ht : Trace (.start policy clock interval) es m) {y : Timed} {v : Value}
    (hy : y ∈ es) (hw : y.what = .replied (.ok v)) (hb : CalledFetch es y.call key ttl) :
    ∃ k n r, Fetch.Means y.call key ttl k n ∧ r.toLease = ⟨v, y.clock + n⟩ ∧
      ((∃ z ∈ es, z.call = y.call ∧ z.what = .inserted k r) ∨
        ∃ m', m.step? y.thread = some (m', [⟨y.thread, y.call, .inserted k r⟩]) ∧
          m'.shared.store.find? k = some r) := by
  obtain ⟨b, hb, hc, hwb⟩ := hb
  cases ht.fate hb hwb with
  | @progress p hl hstory =>
    have hmem : y ∈ trail es b.call := mem_trail.2 ⟨hy, hc.symm⟩
    obtain ⟨k, n, hmeans, ⟨a, rfl⟩ | ⟨z, hz, r, hwz, hr⟩⟩ := hstory.honours y hmem v hw
    · obtain ⟨rest, hf⟩ := ht.account.shaped.top hl rfl
      obtain ⟨m', r, hstep, hr, hfind⟩ := step?_of_insert hf (ht.account.absent hl rfl)
      rw [← hc, hstory.thread y hmem]
      exact ⟨k, n, r, hmeans, hr, .inr ⟨m', hstep, hfind⟩⟩
    · obtain ⟨hz, hzc⟩ := mem_trail.1 hz
      exact ⟨k, n, r, hc ▸ hmeans, hr, .inl ⟨z, hz, hzc.trans hc, hwz⟩⟩
  | @returned pre post e o hes _ hec hew hstory hover =>
    have hmem : y ∈ trail pre b.call := by
      refine mem_trail.2 ⟨?_, hc.symm⟩
      rw [hes, List.mem_append, List.mem_cons] at hy
      obtain hy | rfl | hy := hy
      · exact hy
      · simp [hw] at hew
      · exact absurd hc.symm (hover y hy)
    obtain ⟨k, n, hmeans, ⟨a, hp⟩ | ⟨z, hz, r, hwz, hr⟩⟩ := hstory.honours y hmem v hw
    · cases hp
    · obtain ⟨hz, hzc⟩ := mem_trail.1 hz
      exact ⟨k, n, r, hc ▸ hmeans, hr, .inl ⟨z, by simp [hes, hz], hzc.trans hc, hwz⟩⟩

end Machine

namespace Run

variable {policy : Policy} {clock interval : Int} {g v : List Move} {call ret : Move}
  {m₀ m₁ m₂ : Machine} {t : Tid} {key ttl : Value} {k : Key} {o : Outcome}

theorem paced_append (hg : Run (.start policy clock interval) g m₀) {w : List Move}
    (hw : Run m₀ w m₁) : m₁.Paced (chronicle clock g ++ chronicle m₀.shared.clock w) := by
  have hclock : clockAfter clock g = m₀.shared.clock := hg.clock_eq.symm
  rw [← hclock, ← chronicle_append_list]
  exact (hg.trans hw).paced

theorem unanswered (hg : Run (.start policy clock interval) g m₀)
    (hl : call.label = .call t (.fetch key ttl)) (hv : Run m₀ (call :: v) m₁)
    (hk : key.toKey m₀.shared.fresh = .ok k) (hs : m₀.Supplies t k) :
    ∀ y ∈ lane (chronicle clock g ++ chronicle m₀.shared.clock (call :: v)) t,
      y.call = m₀.shared.fresh → y.what.replied? = none := by
  intro y hy hc
  obtain hy | hy := List.mem_append.1 (mem_lane.1 hy).1
  · exact absurd hc (Nat.ne_of_lt (hg.trace.account.calls y hy))
  · obtain hw | ⟨o, hw⟩ := (hg.barred hl hv hk hs).shown y hy hc
    · rw [hw]
      rfl
    · rw [hw]
      rfl

theorem returning (hg : Run (.start policy clock interval) g m₀) {op : Op}
    (hl : call.label = .call t op) (hv : Run m₀ (call :: v) m₁)
    (hret : m₁.next? ret.label = some (m₂, ret.events))
    (hev : ret.events = [⟨t, m₀.shared.fresh, .returned o⟩]) :
    m₁.frames t = ⟨m₀.shared.fresh, .done o⟩ :: m₀.frames t := by
  have hmakes := Machine.makes_of_next? hret
  rw [hev] at hmakes
  obtain ⟨rest, hf⟩ := hmakes.returned
  obtain ⟨above, ha⟩ := hg.rooted hl hv _ (Machine.live_of_frames hf)
  obtain ⟨-, rfl⟩ := (hg.trace_append hv).account.numbered.split_unique hf ha
  exact hf

theorem objects_iff (hg : Run (.start policy clock interval) g m₀)
    (hl : call.label = .call t (.fetch key ttl)) (hv : Run m₀ (call :: v) m₁)
    (hret : m₁.next? ret.label = some (m₂, ret.events))
    (hev : ret.events = [⟨t, m₀.shared.fresh, .returned o⟩]) {ls : List Timed}
    (hls : ls = lane (chronicle clock g ++ chronicle m₀.shared.clock (call :: v)) t) :
    Fetch.Objects m₀.shared.fresh key ttl k ls o ↔ key.toKey m₀.shared.fresh = .ok k ∧
      (∃ a l, Fetch.Resumed m₀.shared.fresh key ttl (.ok a) ls l) ∧ m₀.Supplies t k := by
  have ht := hg.trace_append hv
  have hf := hg.returning hl hv hret hev
  have hstack : m₁.frames t = [] ++ ⟨m₀.shared.fresh, .done o⟩ :: m₀.frames t := hf
  obtain ⟨b, hb, hbc, hbw⟩ := calledFetch hl hv
  have hpaced := (hg.paced_append hv).stands hstack ⟨b, List.mem_append_right _ hb, hbc, hbw⟩
  rw [← hls] at hpaced
  constructor
  · rintro ⟨rfl, hswept, hsupplied⟩
    cases hpaced with
    | refused h _ => exact absurd h (ttl.toInteger_ne_recursive k)
    | unswept h => exact absurd h (hswept _ _)
    | unkeyed _ h => exact absurd h (key.toKey_ne_recursive k)
    | @recursive a l _ k' f n hres hk heq hmem hflight hsame =>
      cases heq
      -- the call that makes the key waits, so its supplier is at work
      have hw := ht.account.shaped.tail hf f hmem
      obtain ⟨k'', n', hpoint⟩ := Machine.supply_of_waits hw (Point.grip_of_flight hflight)
      rw [hpoint] at hflight
      cases hflight
      exact ⟨hk, ⟨a, l, hres⟩, k', mem_suppliedIn.2 ⟨f, hmem, by rw [hpoint]; rfl⟩, hsame⟩
    | unsupplied _ hy hc hw =>
      have := hsupplied _ hy hc
      simp [hw, Happening.replied?] at this
  · rintro ⟨hk, ⟨a, l, hres⟩, hs⟩
    have hno := hg.unanswered hl hv hk hs
    rw [← hls] at hno
    cases o with
    | ok x => exact ((hg.barred hl hv hk hs).stands (Machine.live_of_frames hf)).2.elim
    | error f =>
      obtain rfl := ht.fault_of_barred hls hpaced hres hk hno
      refine ⟨rfl, fun f l' h => ?_, hno⟩
      rw [hls] at h hres
      cases ht.resumed_unique h hres

theorem prompt (hg : Run (.start policy clock interval) g m₀)
    (hl : call.label = .call t (.fetch key ttl)) (hv : Run m₀ (call :: v) m₁)
    (hk : key.toKey m₀.shared.fresh = .ok k) (hs : m₀.Supplies t k) {p : Point} {a : Answer}
    {l : List Timed} (hlive : m₁.Live t m₀.shared.fresh p)
    (hres : Fetch.Resumed m₀.shared.fresh key ttl (.ok a)
      (lane (chronicle clock g ++ chronicle m₀.shared.clock (call :: v)) t) l) :
    ∃ n ≤ 3, m₁.Raises t m₀.shared.fresh (.recursive k) n := by
  have ht := hg.trace_append hv
  obtain ⟨above, hf⟩ := hg.rooted hl hv p hlive
  obtain ⟨b, hb, hbc, hbw⟩ := calledFetch hl hv
  have hpaced := (hg.paced_append hv).stands hf ⟨b, List.mem_append_right _ hb, hbc, hbw⟩
  -- nothing is left above the fetch, for its sweep has returned
  have top : p.waits = false ∨ above = [] →
      m₁.frames t = ⟨m₀.shared.fresh, p⟩ :: m₀.frames t := by
    rintro (hw | rfl)
    · obtain ⟨rest, hf'⟩ := ht.account.shaped.top hlive hw
      obtain ⟨rfl, rfl⟩ := ht.account.numbered.split_unique hf' hf
      exact hf'
    · exact hf
  have making : ∀ {p}, m₁.frames t = ⟨m₀.shared.fresh, p⟩ :: m₀.frames t →
      m₁.shared.store.find? k = none ∧ ∃ x, m₁.shared.pending? k = some x ∧ x.owner = some t := by
    intro p hf
    obtain ⟨d, n, a, k', hl', hsame⟩ := ht.maker hf hs
    exact ht.supplying hl' hsame
  have hbarred := ((hg.barred hl hv hk hs).stands hlive).2
  cases p with
  | fetch f =>
    cases f with
    | coerce key' ttl' =>
      obtain ⟨-, -, -, hbegun⟩ := hpaced
      obtain ⟨hfol, -⟩ := hres
      exact absurd hbegun (ht.not_begun hfol)
    | lookup key' n =>
      obtain rfl : key' = key := hbarred
      have hnil : above = [] := by
        obtain ⟨frames, d, q, l', rfl, hfol⟩ | ⟨h, -⟩ := hpaced
        · exact absurd (by simp [Machine.Live, hf]) (ht.sweep_over hres (p := q) hfol)
        · exact h
      have hf := top (.inr hnil)
      obtain ⟨hstore, x, hx, ho⟩ := making hf
      exact ⟨3, Nat.le_refl 3, Machine.raises_of_lookup hf hk hstore hx ho⟩
    | register k' n =>
      obtain rfl : k' = k := hbarred
      have hf := top (.inl rfl)
      obtain ⟨hstore, x, hx, ho⟩ := making hf
      exact ⟨2, by omega, Machine.raises_of_register hf hstore hx ho⟩
    | _ => exact hbarred.elim
  | done o =>
    cases o with
    | ok x => exact hbarred.elim
    | error f =>
      obtain rfl := ht.fault_of_barred rfl hpaced hres hk (hg.unanswered hl hv hk hs)
      exact ⟨1, by omega, Machine.raises_of_done (top (.inl rfl))⟩
  | _ => exact hbarred.elim

theorem refused (hg : Run (.start policy clock interval) g m₀)
    (hl : call.label = .call t (.fetch key ttl)) (hv : Run m₀ (call :: v) m₁)
    (hk : key.toKey m₀.shared.fresh = .ok k) (hs : m₀.Supplies t k) :
    Refused (chronicle clock g) m₀ t key ttl k (call :: v) m₁ where
  shown := (hg.barred hl hv hk hs).shown
  turns := by
    intro w₁ mv w₂ n₁ n₂ p rest hw hr hf hd hn
    cases w₁ with
    | nil =>
      cases hw
      simp [hl, Label.Drives] at hd
    | cons mv' v₁ =>
      cases hw
      have ht := hg.trace_append hr
      obtain ⟨above, ha⟩ := hg.rooted hl hr p (Machine.live_of_frames hf)
      obtain ⟨-, rfl⟩ := ht.account.numbered.split_unique hf ha
      have hp := ((hg.barred hl hr hk hs).stands (Machine.live_of_frames hf)).2
      exact (Machine.makes_of_next? hn).untouched ht hd hf hs hp hk
  prompt := fun hlive hres => hg.prompt hl hv hk hs hlive hres
  making := by
    intro p hlive d k' n a hmem _
    have ht := hg.trace_append hv
    obtain ⟨above, hf⟩ := hg.rooted hl hv p hlive
    have hl' : m₁.Live t d (.fetch (.supply k' n a)) := by simp [Machine.Live, hf, hmem]
    exact ⟨hl', ht.custody.owned hl' rfl, (ht.account.held_iff ht.custody).2 ⟨_, hl', rfl⟩,
      ht.account.absent hl' rfl⟩

/-- Recursion is detected, and nothing else is taken for it. -/
theorem detected {h : List Move} {m : Machine} (hr : Run (.start policy clock interval) h m) :
    Detected (.start policy clock interval) h m where
  exactly _ hg hl hv hret hev _ := hg.objects_iff hl hv hret hev rfl
  refused _ hg hl hv hk hs := hg.refused hl hv hk hs
  resumes _ hg hl hv hret hev := by
    have hundone := hg.undone hl hv hret hev
    exact ⟨hundone.frames, hundone.shared⟩
  stored hy hw hb := hr.trace.honoured hy hw hb

end Run

/-- A supplier asks for its own key, written otherwise, and has another key supplied, whose supplier
asks for it too; another thread waits for it. Later the predicate of a fetch's sweep fetches the key
of that fetch, which is not being made yet. -/
def reentrant : List Label :=
  List.flatten [
    [.call 0 (.fetch (.int 1) (.int 5))], .replicate 8 (.step 0),
    [.call 0 (.fetch (.bool true) (.int 5))], .replicate 7 (.step 0),
    [.call 0 (.fetch (.int 2) (.int 5))], .replicate 8 (.step 0),
    [.call 0 (.fetch (.float (.ofRatio false 1 1)) (.int 5))], .replicate 7 (.step 0),
    [.call 1 (.fetch (.int 1) (.int 5))], .replicate 6 (.step 1),
    [.reply 0 (.ok (.text "b"))], .replicate 4 (.step 0),
    [.reply 0 (.ok (.text "a"))], .replicate 4 (.step 0), .replicate 6 (.step 1),
    [.advance 20, .call 0 (.fetch (.int 3) (.int 5))], .replicate 8 (.step 0),
    [.call 0 (.fetch (.int 3) (.int 9))], .replicate 8 (.step 0),
    [.reply 0 (.ok (.text "c"))], .replicate 4 (.step 0),
    [.reply 0 (.ok (.bool false))], .replicate 2 (.step 0),
    [.reply 0 (.ok (.bool false))], .replicate 4 (.step 0)]

theorem detected_reentrant :
    ∃ h m, Run (.start ⟨true, false⟩ 0 10) h m ∧ Detected (.start ⟨true, false⟩ 0 10) h m ∧
      (chronicle 0 h).countP (fun e => e.what matches .returned (.error (.recursive _))) = 2 ∧
      (chronicle 0 h).countP (fun e => e.what matches .inserted ..) = 3 ∧
      m.frames 0 = [] ∧ m.frames 1 = [] ∧ m.shared.store.size = 3 :=
  ⟨_, _, .perform _ reentrant, (Run.perform _ reentrant).detected, by decide +kernel,
    by decide +kernel, List.isEmpty_iff.1 (by decide +kernel),
    List.isEmpty_iff.1 (by decide +kernel), by decide +kernel⟩

end Lapse
