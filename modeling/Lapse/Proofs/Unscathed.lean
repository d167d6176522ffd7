import Lapse.Proofs.Chart
import Lapse.Proofs.Disposal
import Lapse.Proofs.Pacing

namespace Lapse

structure Shared.Spares (t : Tid) (s s' : Shared) : Prop where
  rest : s' = { s with pending := s'.pending, held := s'.held, fresh := s'.fresh }
  owned : ∀ {u}, u ≠ t → ∀ k a, s'.OwnedBy k a u ↔ s.OwnedBy k a u
  held : ∀ {u}, u ≠ t → ∀ a, (a, u) ∈ s'.held ↔ (a, u) ∈ s.held

def Turns (R : Shared → Shared → Prop) (t : Tid) (c : Nat) (m : Machine) (w : List Move) : Prop :=
  ∀ w₁ mv w₂ m₁ m₂ p rest, w = w₁ ++ mv :: w₂ → Run m w₁ m₁ → m₁.frames t = ⟨c, p⟩ :: rest →
    mv.label.Drives t → m₁.next? mv.label = some (m₂, mv.events) → R m₁.shared m₂.shared

def Machine.Raises (m : Machine) (t : Tid) (c : Nat) (f : Fault) (n : Nat) : Prop :=
  ∃ h m', Run m h m' ∧ h.map (·.label) = .replicate n (.step t) ∧
    ⟨t, c, .returned (.error f)⟩ ∈ eventsOf h

/-- A fetch was called after `es`; `w` are the moves until it had failed, from the first machine to
the second, and the third is the one after its return. What it did by itself is undone. -/
structure Undone (es : List Timed) (m₀ : Machine) (t : Tid) (key ttl : Value) (f : Fault)
    (w : List Move) (m m' : Machine) : Prop where
  cause : Fetch.Fails m₀.shared.fresh key ttl f (lane (es ++ chronicle m₀.shared.clock w) t)
    (m₀.frames t)
  answered : ∀ y ∈ chronicle m₀.shared.clock w, y.call = m₀.shared.fresh →
    ∀ r, y.what = .replied r → r = .error f
  turns : Turns (Shared.Spares t) t m₀.shared.fresh m₀ w
  refused : ttl.toInteger = .error f → Turns Eq t m₀.shared.fresh m₀ w
  store : Store.Replays m₀.shared.store
    ((chronicle m₀.shared.clock w).filter (·.call != m₀.shared.fresh)) m.shared.store
  owned : ∀ k a, m.shared.OwnedBy k a t ↔ m₀.shared.OwnedBy k a t
  held : ∀ a, (a, t) ∈ m.shared.held ↔ (a, t) ∈ m₀.shared.held
  shared : m'.shared = m.shared
  frames : m'.frames t = m₀.frames t

structure Unscathed (start : Machine) (h : List Move) (m : Machine) : Prop where
  tended : ∀ x ∈ m.shared.pending, ∃ t c p k, m.Live t c p ∧ p.tends? = some x.id ∧
    p.stake? = some (k, x.id) ∧ k.same x.key = true
  supplying : ∀ {t c k ttl a}, m.Live t c (.fetch (.supply k ttl a)) → m.shared.OwnedBy k a t
  idle : (∀ t, m.frames t = []) → m.shared.pending = [] ∧ m.shared.held = []
  supplied : ∀ {g mv g' m₀ m₁ t c k}, h = g ++ mv :: g' → Run start g m₀ →
    m₀.next? mv.label = some (m₁, mv.events) → ⟨t, c, .asked (.supply k)⟩ ∈ mv.events →
    ∃ key ttl n a l, CalledFetch (chronicle start.shared.clock g) c key ttl ∧
      Fetch.Means c key ttl k n ∧
      Fetch.Resumed c key ttl (.ok a) (lane (chronicle start.shared.clock g) t) l ∧
      m₀.shared.store.find? k = none
  raised : ∀ {y key ttl f}, y ∈ chronicle start.shared.clock h → y.what = .replied (.error f) →
    CalledFetch (chronicle start.shared.clock h) y.call key ttl →
    (∃ n ≤ 3, m.Raises y.thread y.call f n) ∨
      ∃ z ∈ chronicle start.shared.clock h, z.call = y.call ∧ z.what = .returned (.error f)
  failed : ∀ {g call v ret g' m₀ m₁ m₂ t key ttl f}, h = g ++ call :: (v ++ ret :: g') →
    Run start g m₀ → call.label = .call t (.fetch key ttl) → Run m₀ (call :: v) m₁ →
    m₁.next? ret.label = some (m₂, ret.events) →
    ret.events = [⟨t, m₀.shared.fresh, .returned (.error f)⟩] →
    Undone (chronicle start.shared.clock g) m₀ t key ttl f (call :: v) m₁ m₂

namespace Store

theorem Replays.filter {s s' : Store} {es : List Timed} (h : Replays s es s') {P : Timed → Bool}
    (hP : ∀ e ∈ es, P e = false → e.what.touched? = none) : Replays s (es.filter P) s' := by
  induction h with
  | nil => exact .nil
  | @cons s s' s'' e es hf h ih =>
    rw [List.forall_mem_cons] at hP
    cases he : P e with
    | true =>
      rw [List.filter_cons_of_pos he]
      exact .cons hf (ih hP.2)
    | false =>
      rw [List.filter_cons_of_neg (by simp [he])]
      obtain rfl := hf.unique (.other (hP.1 he))
      exact ih hP.2

end Store

theorem Fetch.Goes.rest {s s' : Shared} {t : Tid} {c : Nat} {f : Fetch} {hs : List Happening}
    {course : Course Fetch} (h : f.Goes s t c hs s' course) (hq : ∀ x ∈ hs, x.touched? = none) :
    s' = { s with pending := s'.pending, held := s'.held, fresh := s'.fresh } := by
  cases h with
  | found | foundLate | inserted | overwritten => simp [Happening.touched?] at hq
  | _ => rfl

theorem Point.Converses.failing {p : Point} {l : List Timed} {key ttl : Value} {y : Timed}
    {f : Fault} (h : p.Converses l) (hop : (Op.fetch key ttl).admits p = true) (hy : y ∈ l)
    (hw : y.what = .replied (.error f)) : (∃ k a, p = .fetch (.withdraw k a (.error f))) ∨
      (∃ a, p = .fetch (.release a (.error f))) ∨ p = .done (.error f) := by
  have silent : ¬Silent l := fun hs => by simpa [hw, Happening.replied?] using (hs y hy).2
  have same : ∀ {k r}, Learns k r l → r = .error f := fun hl => (hl.reply hy hw).symm
  cases p with
  | fetch g =>
    cases g with
    | supply k _ _ =>
      obtain ⟨rfl, hl, ha⟩ : Asks k l := h
      obtain hy | hy := List.mem_append.1 hy
      · simpa [hw, Happening.replied?] using (hl y hy).2
      · obtain rfl := List.mem_singleton.1 hy
        simp [ha] at hw
    | insert k a x => cases same (show Learns k (.ok x.value) l from h)
    | withdraw k a o =>
      obtain ⟨k', r, hl, rfl⟩ := h
      obtain rfl := same hl
      exact .inl ⟨k, a, rfl⟩
    | release a o =>
      obtain ⟨k', r, hl, rfl⟩ := h
      obtain rfl := same hl
      exact .inr (.inl ⟨a, rfl⟩)
    | _ => exact absurd h silent
  | done o =>
    obtain hs | ⟨k', r, hl, rfl⟩ := h
    · exact absurd hs silent
    · obtain rfl := same hl
      exact .inr (.inr rfl)
  | _ => cases hop

namespace Machine

variable {policy : Policy} {clock interval : Int} {m m' : Machine} {es es' : List Timed} {t : Tid}
  {c : Nat} {p : Point} {fs : List Frame}

theorem Custody.ownedBy_iff (hc : m.Custody es) {k : Key} {a : Nat} :
    m.shared.OwnedBy k a t ↔
      ∃ f ∈ m.frames t, ∃ k', f.point.flight? = some (k', a) ∧ k'.same k = true := by
  constructor
  · rintro ⟨x, hx, rfl, ho⟩
    obtain ⟨hmem, hk⟩ := Shared.mem_of_pending? hx
    obtain ⟨d, q, k', hl, hflight, hsame⟩ := hc.making hmem ho
    exact ⟨_, hl, k', hflight, Key.same_trans hsame hk⟩
  · rintro ⟨⟨d, q⟩, hl, k', hflight, hsame⟩
    obtain ⟨x, hx, h⟩ := hc.owned hl hflight
    exact ⟨x, by rwa [← Shared.pending?_congr _ hsame], h⟩

theorem Account.held_iff (ha : m.Account policy es) (hc : m.Custody es) {a : Nat} :
    (a, t) ∈ m.shared.held ↔ ∃ f ∈ m.frames t, f.point.grip? = some a := by
  constructor
  · intro h
    obtain ⟨d, q, hl, hg⟩ := hc.held h
    exact ⟨_, hl, hg⟩
  · rintro ⟨⟨d, q⟩, hl, hg⟩
    obtain ⟨u, hu⟩ := isHeld_iff.1 (ha.guarded.held hl hg)
    obtain ⟨d', q', hl', hg'⟩ := hc.held hu
    obtain rfl := ha.guarded.sole hl hl' hg hg'
    rwa [ha.numbered.apart hl hl']

theorem Custody.tends (hc : m.Custody es) {x : Creation} (hx : x ∈ m.shared.pending) :
    ∃ t c p k, m.Live t c p ∧ p.tends? = some x.id ∧ p.stake? = some (k, x.id) ∧
      k.same x.key = true := by
  obtain ⟨t, c, p, hl, ht⟩ := hc.tended x hx
  obtain ⟨k, hk⟩ : ∃ k, p.stake? = some (k, x.id) := by
    cases p with
    | fetch f => cases f <;> cases ht <;> exact ⟨_, rfl⟩
    | _ => cases ht
  obtain ⟨e, he, k', -, -, hw, hk'⟩ := hc.joined hl (Point.joined_of_stake hk)
  obtain rfl := hk' k hk
  obtain ⟨e', he', hw'⟩ := hc.made x hx
  exact ⟨t, c, p, k, hl, ht, hk, hc.agree he he' hw hw'⟩

def Rooted (m : Machine) (t : Tid) (c : Nat) (fs : List Frame) : Prop :=
  ∀ p, m.Live t c p → ∃ above, m.frames t = above ++ ⟨c, p⟩ :: fs

theorem Numbered.split_unique (hn : m.Numbered) {q : Point} {above rest : List Frame}
    (hf : m.frames t = ⟨c, p⟩ :: rest) (hs : m.frames t = above ++ ⟨c, q⟩ :: fs) :
    above = [] ∧ rest = fs := by
  cases above with
  | nil => exact ⟨rfl, (List.cons.inj (hf.symm.trans hs)).2⟩
  | cons g above =>
    obtain ⟨rfl, hrest⟩ := List.cons.inj (hf.symm.trans hs)
    have hmem : ⟨c, q⟩ ∈ rest := by simp [hrest]
    exact absurd rfl ((hn.mem_rest hf).1 hmem).2

theorem Rooted.set (hr : m.Rooted t c fs) {s : Shared} {u : Tid} {stack : List Frame}
    (h : u = t → ∀ p, ⟨c, p⟩ ∈ stack → ∃ above, stack = above ++ ⟨c, p⟩ :: fs) :
    Rooted ⟨s, m.calls.set u stack⟩ t c fs := by
  intro p hl
  obtain ⟨rfl, hmem⟩ | ⟨hne, hl⟩ := live_set.1 hl
  · rw [frames_mk_set]
    exact h rfl p hmem
  · rw [frames_mk_set_of_ne _ _ hne]
    exact hr p hl

theorem Rooted.top (hr : m.Rooted t c fs) (hn : m.Numbered) {d : Nat} {q : Point}
    {rest : List Frame} (hf : m.frames t = ⟨d, q⟩ :: rest) :
    (∀ q' p, ⟨c, p⟩ ∈ (⟨d, q'⟩ :: rest : List Frame) →
      ∃ above, ⟨d, q'⟩ :: rest = above ++ ⟨c, p⟩ :: fs) ∧
    ∀ p, ⟨c, p⟩ ∈ rest → ∃ above, rest = above ++ ⟨c, p⟩ :: fs := by
  have below : ∀ p, ⟨c, p⟩ ∈ rest → ∃ above, rest = above ++ ⟨c, p⟩ :: fs := by
    intro p hmem
    obtain ⟨hl, hne⟩ := (hn.mem_rest hf).1 hmem
    obtain ⟨above, ha⟩ := hr p hl
    cases above with
    | nil =>
      cases (List.cons.inj (hf.symm.trans ha)).1
      exact absurd rfl hne
    | cons g above => exact ⟨above, (List.cons.inj (hf.symm.trans ha)).2⟩
  refine ⟨fun q' p hmem => ?_, below⟩
  obtain hmem | hmem := List.mem_cons.1 hmem
  · cases hmem
    obtain ⟨above, ha⟩ := hr q (live_of_frames hf)
    obtain ⟨-, rfl⟩ := hn.split_unique hf ha
    exact ⟨[], rfl⟩
  · obtain ⟨above, ha⟩ := below p hmem
    exact ⟨⟨d, q'⟩ :: above, by rw [ha]; rfl⟩

theorem Change.rooted (h : Change m es' m') (hn : m.Numbered) (hc : c < m.shared.fresh)
    (hr : m.Rooted t c fs) : m'.Rooted t c fs := by
  cases h with
  | advance ns => exact hr
  | @call u op _ =>
    refine hr.set ?_
    rintro rfl p hmem
    obtain hmem | hmem := List.mem_cons.1 hmem
    · cases hmem
      exact absurd hc (Nat.lt_irrefl _)
    · obtain ⟨above, ha⟩ := hr p hmem
      exact ⟨_ :: above, by rw [ha]; rfl⟩
  | turn hf _ =>
    refine hr.set ?_
    rintro rfl p hmem
    exact (hr.top hn hf).1 _ p hmem
  | leave hf =>
    refine hr.set ?_
    rintro rfl p hmem
    exact (hr.top hn hf).2 p hmem
  | fail f hf _ =>
    refine hr.set ?_
    rintro rfl p hmem
    exact (hr.top hn hf).1 _ p hmem

theorem Trace.rooted (h : Trace m es m') (hn : m.Numbered) (hc : c < m.shared.fresh)
    (hr : m.Rooted t c fs) : m'.Rooted t c fs := by
  have keep := h.invariant (P := fun m => m.Numbered ∧ c < m.shared.fresh ∧ m.Rooted t c fs)
    (fun ⟨hn, hc, hr⟩ hch =>
      ⟨hch.numbered hn, Nat.lt_of_lt_of_le hc hch.fresh, hch.rooted hn hc hr⟩)
    ⟨hn, hc, hr⟩
  exact keep.2.2

theorem Makes.frames_of_drives {l : Label} {evs : List Event} (h : m.Makes l evs m')
    (hd : l.Drives t) {u : Tid} (hu : u ≠ t) : m'.frames u = m.frames u := by
  have set : ∀ {t' : Tid} {s : Shared} {stack : List Frame}, l.thread? = some t' →
      frames ⟨s, m.calls.set t' stack⟩ u = m.frames u := by
    intro t' s stack ht'
    rw [hd.thread] at ht'
    cases ht'
    exact frames_mk_set_of_ne _ m hu _
  cases h with
  | advance ns => rfl
  | call _ => cases hd
  | turn hd' _ _ _ => exact set hd'.thread
  | gate hd' _ _ => exact set hd'.thread
  | leave _ _ => exact set rfl
  | fail _ _ => exact set rfl

theorem Makes.spares {l : Label} {evs : List Event} (h : m.Makes l evs m')
    (ht : Trace (.start policy clock interval) es m)
    (ht' : Trace (.start policy clock interval) es' m') (hd : l.Drives t)
    (hrest : m'.shared = { m.shared with
      pending := m'.shared.pending, held := m'.shared.held, fresh := m'.shared.fresh }) :
    m.shared.Spares t m'.shared where
  rest := hrest
  owned hu k a := by
    rw [ht'.custody.ownedBy_iff, ht.custody.ownedBy_iff, h.frames_of_drives hd hu]
  held hu a := by
    rw [ht'.account.held_iff ht'.custody, ht.account.held_iff ht.custody, h.frames_of_drives hd hu]

theorem Raises.step {n : Nat} {evs : List Event} {f : Fault} (hs : m.step? t = some (m', evs))
    (h : m'.Raises t c f n) : m.Raises t c f (n + 1) := by
  obtain ⟨g, m₁, hr, hl, hmem⟩ := h
  have hrun : Run m (⟨.step t, evs⟩ :: g) m₁ := Run.cons_iff.2 ⟨m', hs, hr⟩
  refine ⟨_, m₁, hrun, by simp [hl, List.replicate_succ], ?_⟩
  exact List.mem_append_right _ hmem

theorem raises_of_done {f : Fault} (hf : m.frames t = ⟨c, .done (.error f)⟩ :: fs) :
    m.Raises t c f 1 := by
  have hs : m.next? (.step t) = some (m.finish t c (.error f) fs) := by
    simp only [next?, step?, hf]
  exact ⟨_, _, Run.start.next hs, rfl, by simp [eventsOf]⟩

theorem raises_of_release {a : Nat} {f : Fault}
    (hf : m.frames t = ⟨c, .fetch (.release a (.error f))⟩ :: fs) : m.Raises t c f 2 := by
  have hstep := step?_of_frames hf (by simp)
  exact (raises_of_done (frames_mk_set ..)).step hstep

theorem raises_of_withdraw {k : Key} {a : Nat} {f : Fault}
    (hf : m.frames t = ⟨c, .fetch (.withdraw k a (.error f))⟩ :: fs) : m.Raises t c f 3 := by
  have hstep := step?_of_frames hf (by simp)
  simp only [Point.step, Fetch.step] at hstep
  split at hstep
  all_goals exact (raises_of_release (frames_mk_set ..)).step hstep

theorem Shaped.top (hs : m.Shaped) (hl : m.Live t c p) (hw : p.waits = false) :
    ∃ rest, m.frames t = ⟨c, p⟩ :: rest := by
  cases hf : m.frames t with
  | nil => simp [Live, hf] at hl
  | cons g rest =>
    rw [Live, hf, List.mem_cons] at hl
    obtain rfl | hmem := hl
    · exact ⟨rest, rfl⟩
    · have := hs.tail hf _ hmem
      simp [hw] at this

theorem Trace.raises (ht : Trace (.start policy clock interval) es m) {y : Timed} {key ttl : Value}
    {f : Fault} (hy : y ∈ es) (hw : y.what = .replied (.error f))
    (hb : CalledFetch es y.call key ttl) : (∃ n ≤ 3, m.Raises y.thread y.call f n) ∨
      ∃ z ∈ es, z.call = y.call ∧ z.what = .returned (.error f) := by
  obtain ⟨b, hb, hc, hwb⟩ := hb
  cases ht.fate hb hwb with
  | progress hl hstory =>
    have hmem : y ∈ trail es b.call := mem_trail.2 ⟨hy, hc.symm⟩
    have hshaped := ht.account.shaped
    rw [← hc, hstory.thread y hmem]
    left
    obtain ⟨k, a, rfl⟩ | ⟨a, rfl⟩ | rfl := hstory.converses.failing hstory.admits hmem hw
    · obtain ⟨rest, hf⟩ := hshaped.top hl rfl
      exact ⟨3, by omega, raises_of_withdraw hf⟩
    · obtain ⟨rest, hf⟩ := hshaped.top hl rfl
      exact ⟨2, by omega, raises_of_release hf⟩
    · obtain ⟨rest, hf⟩ := hshaped.top hl rfl
      exact ⟨1, by omega, raises_of_done hf⟩
  | @returned pre post z o hes _ hcz hwz hstory hover =>
    have hmem : y ∈ trail pre b.call := by
      refine mem_trail.2 ⟨?_, hc.symm⟩
      rw [hes, List.mem_append, List.mem_cons] at hy
      obtain hy | rfl | hy := hy
      · exact hy
      · simp [hw] at hwz
      · exact absurd hc.symm (hover y hy)
    obtain ⟨_, _, h⟩ | ⟨_, h⟩ | h := hstory.converses.failing hstory.admits hmem hw
    · cases h
    · cases h
    · cases h
      exact .inr ⟨z, by simp [hes], hcz.trans hc, hwz⟩

theorem Makes.supplied {l : Label} {evs : List Event} (h : m.Makes l evs m')
    (ht : Trace (.start policy clock interval) es m)
    (ht' : Trace (.start policy clock interval) es' m') (hp : m.Paced es) {k : Key}
    (hmem : ⟨t, c, .asked (.supply k)⟩ ∈ evs) : ∃ key ttl n a l, CalledFetch es c key ttl ∧
      Fetch.Means c key ttl k n ∧ Fetch.Resumed c key ttl (.ok a) (lane es t) l ∧
      m.shared.store.find? k = none := by
  cases h with
  | advance ns => cases hmem
  | @turn _ u d q rest hs s course hd hf hg _ =>
    obtain ⟨x, hx, heq⟩ := List.mem_map.1 hmem
    cases heq
    obtain ⟨-, n, a, rfl⟩ := hg.claim_of_supply hx
    obtain ⟨op, hstory⟩ := ht.story (live_of_frames hf)
    have hop := hstory.admits
    cases op with
    | fetch key ttl =>
      have htale : (Fetch.claim k n a).Tale c key ttl (trail es c) := hstory.fetches
      have hb : CalledFetch es c key ttl := hstory.mem_called
      have hrest : m.frames t = [] ++ ⟨c, .fetch (.claim k n a)⟩ :: rest := hf
      obtain ⟨b, l, hres⟩ : ∃ b l, Fetch.Resumed c key ttl (.ok b) (lane es t) l :=
        hp.stands hrest hb
      refine ⟨key, ttl, n, b, l, hb, htale.1, hres, ?_⟩
      cases hg with
      | fetch hg =>
        cases hg with
        | claimed =>
          have hl : Live ⟨m.shared.own a t, m.calls.set t (⟨c, .fetch (.supply k n a)⟩ :: rest)⟩ t c
              (.fetch (.supply k n a)) := live_of_frames (frames_mk_set ..)
          exact Store.find?_eq_none_iff.2 (ht'.account.absent hl rfl)
        | stale => simp at hx
    | _ => cases hop
  | _ => simp at hmem

theorem Numbered.rooted (hn : m.Numbered) (op : Op) :
    (m.push t op (m.frames t)).1.Rooted t m.shared.fresh (m.frames t) := by
  intro p hl
  have hstack : (m.push t op (m.frames t)).1.frames t = ⟨m.shared.fresh, op.start⟩ :: m.frames t :=
    frames_mk_set ..
  obtain ⟨-, -, rfl⟩ | hl := live_call.1 hl
  · exact ⟨[], hstack⟩
  · exact absurd (hn.bound hl) (Nat.lt_irrefl _)

theorem Makes.failed {l : Label} {f : Fault} (h : m.Makes l [⟨t, c, .returned (.error f)⟩] m')
    (hn : m.Numbered) (hr : m.Rooted t c fs) (hc : mayCall fs = true) :
    m.frames t = ⟨c, .done (.error f)⟩ :: fs ∧ m' = m.setFrames t fs := by
  generalize hevs : [(⟨t, c, .returned (.error f)⟩ : Event)] = evs at h
  cases h with
  | @leave u d o rest hf _ =>
    cases hevs
    obtain ⟨above, ha⟩ := hr _ (live_of_frames hf)
    obtain ⟨-, rfl⟩ := hn.split_unique hf ha
    exact ⟨hf, rfl⟩
  | @fail u d x below others hf hw =>
    cases hevs
    obtain ⟨above, ha⟩ := hr _ (live_of_frames hf)
    obtain ⟨-, rfl⟩ := hn.split_unique hf ha
    simp [hc] at hw
  | turn _ _ hp _ =>
    obtain ⟨x, rfl, hx⟩ := List.map_eq_singleton_iff.1 hevs.symm
    cases hx
    exact absurd List.mem_cons_self (hp.inner.2 _)
  | _ => cases hevs

theorem Makes.rest {l : Label} {evs : List Event} (h : m.Makes l evs m')
    (ht : Trace (.start policy clock interval) es m) (hd : l.Drives t)
    (hf : m.frames t = ⟨c, p⟩ :: fs) {key ttl : Value} (hb : CalledFetch es c key ttl)
    (hq : ∀ e ∈ evs, e.call = c → e.what.touched? = none) : m'.shared = { m.shared with
      pending := m'.shared.pending, held := m'.shared.held, fresh := m'.shared.fresh } := by
  cases h with
  | @turn _ u d q rest hs s course hd' hf' hg _ =>
    have hu := hd.thread.symm.trans hd'.thread
    cases hu
    cases hf.symm.trans hf'
    have hop := ht.admits_of_called (live_of_frames hf) hb
    cases hg with
    | fetch hg => exact hg.rest fun x hx => hq _ (List.mem_map_of_mem hx) rfl
    | _ => cases hop
  | advance ns => cases hd
  | _ => rfl

theorem Makes.refused {l : Label} {evs : List Event} (h : m.Makes l evs m')
    (ht : Trace (.start policy clock interval) es m) (hp : m.Paced es) (hd : l.Drives t)
    (hf : m.frames t = ⟨c, p⟩ :: fs) {key ttl : Value} (hb : CalledFetch es c key ttl) {f : Fault}
    (hr : ttl.toInteger = .error f) : m.shared = m'.shared := by
  have hrest : m.frames t = [] ++ ⟨c, p⟩ :: fs := hf
  have hpaced := hp.stands hrest hb
  have hop := ht.admits_of_called (live_of_frames hf) hb
  have coerce : ∀ {g}, p = .fetch g → g = .coerce key ttl := by
    rintro g rfl
    have contra : ∀ {d l}, ¬Fetch.Followed c key ttl d (lane es t) l := by
      rintro d l ⟨hn, -⟩
      simp [hr] at hn
    cases g with
    | coerce key' ttl' =>
      obtain ⟨rfl, rfl, -⟩ := hpaced
      rfl
    | lookup =>
      obtain ⟨_, _, _, _, -, hfol⟩ | ⟨-, _, _, hres⟩ := hpaced
      · exact absurd hfol contra
      · obtain ⟨hfol, -⟩ := hres
        exact absurd hfol contra
    | _ =>
      obtain ⟨_, _, hfol, -⟩ := hpaced
      exact absurd hfol contra
  cases h with
  | advance ns => cases hd
  | call _ => cases hd
  | @turn _ u d q rest hs s course hd' hf' hg _ =>
    have hu := hd.thread.symm.trans hd'.thread
    cases hu
    cases hf.symm.trans hf'
    cases hg with
    | fetch hg =>
      obtain rfl := coerce rfl
      cases hg <;> rfl
    | _ => cases hop
  | @gate _ u d q q' rest hd' hf' hg =>
    have hu := hd.thread.symm.trans hd'.thread
    cases hu
    cases hf.symm.trans hf'
    obtain ⟨_, _, n, hn, rfl, -⟩ | rfl := hg.gates
    · cases coerce rfl
      simp [hr] at hn
    · cases hop
  | leave _ _ => rfl
  | fail _ _ => rfl

end Machine

namespace Run

variable {policy : Policy} {clock interval : Int} {g v : List Move} {call ret : Move}
  {m₀ m₁ m₂ : Machine} {t : Tid} {key ttl : Value} {f : Fault}

theorem begun {op : Op} (hl : call.label = .call t op) (hv : Run m₀ (call :: v) m₁) :
    mayCall (m₀.frames t) = true ∧ call.events = [⟨t, m₀.shared.fresh, .called op⟩] ∧
      Run (m₀.push t op (m₀.frames t)).1 v m₁ := by
  obtain ⟨m', hm', hv'⟩ := Run.cons_iff.1 hv
  rw [hl] at hm'
  obtain ⟨hc, heq⟩ := Option.ite_none_right_eq_some.1 hm'
  obtain ⟨rfl, hcall⟩ := Prod.mk.inj (Option.some.inj heq)
  exact ⟨hc, hcall.symm, hv'⟩

theorem rooted (hg : Run (.start policy clock interval) g m₀) {op : Op}
    (hl : call.label = .call t op) (hv : Run m₀ (call :: v) m₁) :
    m₁.Rooted t m₀.shared.fresh (m₀.frames t) := by
  have ha := hg.trace.account
  obtain ⟨hc, -, hv'⟩ := begun hl hv
  have hch : m₀.Change _ (m₀.push t op (m₀.frames t)).1 := .call (.inl hc)
  exact (hv'.trace_from (hch.shaped ha.shaped)).rooted (hch.numbered ha.numbered)
    (Nat.lt_succ_self _) (ha.numbered.rooted op)

theorem calledFetch (hl : call.label = .call t (.fetch key ttl)) (hv : Run m₀ (call :: v) m₁) :
    CalledFetch (chronicle m₀.shared.clock (call :: v)) m₀.shared.fresh key ttl := by
  obtain ⟨-, hev, -⟩ := begun hl hv
  exact ⟨_, by simpa [chronicle, hev] using .inl rfl, rfl, rfl⟩

theorem undone (hg : Run (.start policy clock interval) g m₀)
    (hl : call.label = .call t (.fetch key ttl)) (hv : Run m₀ (call :: v) m₁)
    (hret : m₁.next? ret.label = some (m₂, ret.events))
    (hev : ret.events = [⟨t, m₀.shared.fresh, .returned (.error f)⟩]) :
    Undone (chronicle clock g) m₀ t key ttl f (call :: v) m₁ m₂ := by
  have ha := hg.trace.account
  have ht := hg.trace_append hv
  have hmakes := Machine.makes_of_next? hret
  rw [hev] at hmakes
  obtain ⟨hf, rfl⟩ := hmakes.failed ht.account.numbered (hg.rooted hl hv) (begun hl hv).1
  have hclock : clockAfter clock g = m₀.shared.clock := hg.clock_eq.symm
  -- what the call shows from its beginning to its end
  obtain ⟨op, hstory⟩ := ht.story (Machine.live_of_frames hf)
  obtain ⟨b, hb, hbc, hbw⟩ := calledFetch hl hv
  obtain rfl := hstory.called (List.mem_append_right _ hb) hbc hbw
  have shown : ∀ {y}, y ∈ chronicle m₀.shared.clock (call :: v) → y.call = m₀.shared.fresh →
      y ∈ trail (chronicle clock g ++ chronicle m₀.shared.clock (call :: v)) m₀.shared.fresh :=
    fun hy hc => mem_trail.2 ⟨List.mem_append_right _ hy, hc⟩
  have quiet : Quiet (trail (chronicle clock g ++ chronicle m₀.shared.clock (call :: v))
    m₀.shared.fresh) := hstory.fetches
  -- a move of its own comes after the one that it began with
  have own : ∀ {w₁ mv w₂ n}, call :: v = w₁ ++ mv :: w₂ → Run m₀ w₁ n → mv.label.Drives t →
      CalledFetch (chronicle clock g ++ chronicle m₀.shared.clock w₁) m₀.shared.fresh key ttl := by
    intro w₁ mv w₂ n hw hr hd
    cases w₁ with
    | nil =>
      cases hw
      simp [hl, Label.Drives] at hd
    | cons mv' v₁ =>
      cases hw
      obtain ⟨b, hb, h⟩ := calledFetch hl hr
      exact ⟨b, List.mem_append_right _ hb, h⟩
  have paced : ∀ {w n}, Run m₀ w n →
      n.Paced (chronicle clock g ++ chronicle m₀.shared.clock w) := by
    intro w n hr
    rw [← hclock, ← chronicle_append_list]
    exact (hg.trans hr).paced
  have hinner : Store.Replays m₀.shared.store (chronicle m₀.shared.clock (call :: v))
      m₁.shared.store := (hv.trace_from ha.shaped).replays ha
  constructor
  case cause =>
    have hrest : m₁.frames t = [] ++ ⟨m₀.shared.fresh, .done (.error f)⟩ :: m₀.frames t := hf
    exact (paced hv).stands hrest ⟨b, List.mem_append_right _ hb, hbc, hbw⟩
  case answered =>
    intro y hy hc r hw
    have hconv : Silent _ ∨ ∃ k r, Learns k r _ ∧ .error f = r.outcome := hstory.converses
    obtain hs | ⟨k, r', hlearn, ho⟩ := hconv
    · simpa [hw, Happening.replied?] using (hs y (shown hy hc)).2
    · obtain rfl := hlearn.reply (shown hy hc) hw
      cases r with
      | ok v => cases ho
      | error x =>
        cases ho
        rfl
  case turns =>
    intro w₁ mv w₂ n₁ n₂ p rest hw hr hf' hd hn
    have ht₁ := hg.trace_append hr
    have hmv := Machine.makes_of_next? hn
    refine hmv.spares ht₁ (hg.trace_append (hr.next hn)) hd ?_
    refine hmv.rest ht₁ hd hf' (own hw hr hd) fun e he hc => ?_
    refine quiet ⟨e, clockAfter m₀.shared.clock w₁⟩ (shown ?_ hc)
    rw [hw, chronicle_append_list]
    exact List.mem_append_right _ (List.mem_append_left _ (List.mem_map_of_mem he))
  case refused =>
    intro hrefused w₁ mv w₂ n₁ n₂ p rest hw hr hf' hd hn
    exact (Machine.makes_of_next? hn).refused (hg.trace_append hr) (paced hr) hd hf' (own hw hr hd)
      hrefused
  case store =>
    refine hinner.filter fun e he hc => ?_
    exact quiet e (shown he (by simpa using hc))
  case owned =>
    intro k a
    rw [ht.custody.ownedBy_iff, hg.trace.custody.ownedBy_iff, hf, List.exists_mem_cons_iff]
    exact or_iff_right (by rintro ⟨_, hk, -⟩; cases hk)
  case held =>
    intro a
    rw [ht.account.held_iff ht.custody, ha.held_iff hg.trace.custody, hf,
      List.exists_mem_cons_iff]
    exact or_iff_right (by rintro ⟨⟩)
  case shared => rfl
  case frames => exact Machine.frames_setFrames ..

/-- Errors leave the cache clean. -/
theorem unscathed {h : List Move} {m : Machine} (hr : Run (.start policy clock interval) h m) :
    Unscathed (.start policy clock interval) h m := by
  have ht := hr.trace
  constructor
  case tended => exact fun x hx => ht.custody.tends hx
  case supplying => exact fun hl => ht.custody.owned hl rfl
  case idle => exact ht.custody.idle
  case supplied =>
    intro g mv g' m₀ m₁ t c k _ hg hn hmem
    exact (Machine.makes_of_next? hn).supplied hg.trace (hg.next hn).trace hg.paced hmem
  case raised => exact fun hy hw hb => ht.raises hy hw hb
  case failed =>
    intro g call v ret g' m₀ m₁ m₂ t key ttl f _ hg hl hv hn hev
    exact hg.undone hl hv hn hev

end Run

/-- A time to live and a key are refused; a supplier that asks for its own key is refused that, and
fails itself while another thread waits for the key, whose supplier is called then. -/
def troubled : List Label :=
  List.flatten [
    [.call 0 (.fetch (.int 1) (.text "soon"))], .replicate 2 (.step 0),
    [.call 0 (.fetch (.list []) (.int 5))], .replicate 6 (.step 0),
    [.call 0 (.fetch (.int 1) (.int 5))], .replicate 8 (.step 0),
    [.call 0 (.fetch (.bool true) (.int 5))], .replicate 7 (.step 0),
    [.call 1 (.fetch (.int 1) (.int 5))], .replicate 7 (.step 1),
    [.reply 0 (.error (.raised .boom ""))], .replicate 3 (.step 0), .replicate 7 (.step 1)]

theorem unscathed_troubled :
    ∃ h m, Run (.start ⟨false, false⟩ 0 10) h m ∧ Unscathed (.start ⟨false, false⟩ 0 10) h m ∧
      ((chronicle 0 h).filterMap (·.what.returned?)).countP (!·.isOk) = 4 ∧
      (chronicle 0 h).countP (·.what.asks) = 2 ∧ m.shared.pending.map (·.owner) = [some 1] ∧
      m.shared.store.size = 0 :=
  ⟨_, _, .perform _ troubled, (Run.perform _ troubled).unscathed, by decide +kernel,
    by decide +kernel, by decide +kernel, by decide +kernel⟩

end Lapse
