import Lapse.Proofs.Calls
import Lapse.Proofs.Store

namespace Lapse

namespace Fetch

def grip? : Fetch → Option Nat
  | .claim _ _ a => some a
  | .supply _ _ a => some a
  | .insert _ a _ => some a
  | .withdraw _ a _ => some a
  | .release a _ => some a
  | .again _ _ a => some a
  | _ => none

def flight? : Fetch → Option (Key × Nat)
  | .supply k _ a => some (k, a)
  | .insert k a _ => some (k, a)
  | .withdraw k a _ => some (k, a)
  | _ => none

def making? : Fetch → Option Key
  | .supply k _ _ => some k
  | .insert k _ _ => some k
  | _ => none

def landed? : Fetch → Option Nat
  | .withdraw _ a (.ok _) => some a
  | _ => none

end Fetch

namespace Point

def grip? : Point → Option Nat
  | .fetch f => f.grip?
  | _ => none

def flight? : Point → Option (Key × Nat)
  | .fetch f => f.flight?
  | _ => none

def making? : Point → Option Key
  | .fetch f => f.making?
  | _ => none

def landed? : Point → Option Nat
  | .fetch f => f.landed?
  | _ => none

theorem grip_of_flight {p : Point} {k : Key} {a : Nat} (h : p.flight? = some (k, a)) :
    p.grip? = some a := by
  cases p with
  | fetch f => cases f <;> cases h <;> rfl
  | _ => cases h

theorem grip_of_landed {p : Point} {a : Nat} (h : p.landed? = some a) : p.grip? = some a := by
  cases p with
  | fetch f =>
    cases f with
    | withdraw k b o => cases o <;> cases h; rfl
    | _ => cases h
  | _ => cases h

theorem flight_of_making {p : Point} {k : Key} (h : p.making? = some k) :
    ∃ a, p.flight? = some (k, a) ∧ p.landed? = none := by
  cases p with
  | fetch f => cases f <;> cases h <;> exact ⟨_, rfl, rfl⟩
  | _ => cases h

end Point

namespace Shared

def OnePerKey (s : Shared) : Prop :=
  ∀ x ∈ s.pending, ∀ y ∈ s.pending, x.key.same y.key = true → x.id = y.id

theorem contains_put (s : Shared) (k k' : Key) (l : Lease) :
    (s.put k l).store.contains k' = (s.store.contains k' || k.same k') := by
  simp only [put, Store.put]
  cases hk : s.store.contains k with
  | false => simp [Store.contains_append]
  | true =>
    simp only [if_true, Store.contains_replace]
    cases hs : k.same k' with
    | false => simp
    | true => simp [← Store.contains_congr _ hs, hk]

theorem contains_put_of_contains {s : Shared} {k : Key} (h : s.store.contains k = true) (l : Lease)
    (k' : Key) : (s.put k l).store.contains k' = s.store.contains k' := by
  rw [contains_put]
  cases hs : k.same k' with
  | false => simp
  | true => simp [← Store.contains_congr _ hs, h]

theorem isHeld_hold (s : Shared) (a b : Nat) (t : Tid) :
    (s.hold a t).isHeld b = (a == b || s.isHeld b) := by
  simp [hold, isHeld]

theorem isHeld_letGo (s : Shared) {a b : Nat} (h : a ≠ b) :
    (s.letGo a).isHeld b = s.isHeld b := by
  simp only [letGo, isHeld, List.any_filter]
  congr 1
  funext x
  by_cases hx : x.1 = b
  · have : x.1 ≠ a := by
      rintro rfl
      exact h hx
    simp [hx, Ne.symm h]
  · simp [hx]

theorem isPending_iff {s : Shared} {k : Key} {a : Nat} :
    s.isPending k a = true ↔ ∃ x, s.pending? k = some x ∧ x.id = a := by
  rw [isPending, Option.any_eq_true]
  simp

theorem mem_of_pending? {s : Shared} {k : Key} {x : Creation} (h : s.pending? k = some x) :
    x ∈ s.pending ∧ x.key.same k = true :=
  ⟨List.mem_of_find?_eq_some h, by simpa using List.find?_some h⟩

theorem pending?_congr (s : Shared) {k k' : Key} (h : k.same k' = true) :
    s.pending? k = s.pending? k' := by
  simp only [pending?, Key.same_congr_right h]

theorem isPending_create {s : Shared} {k k' : Key} {a : Nat} (h : s.isPending k' a = true) :
    (s.create k).isPending k' a = true := by
  obtain ⟨x, hx, ha⟩ := isPending_iff.1 h
  refine isPending_iff.2 ⟨x, ?_, ha⟩
  simp only [pending?] at hx
  simp [pending?, create, List.find?_append, hx]

theorem pending?_own (s : Shared) (a : Nat) (t : Tid) (k : Key) :
    (s.own a t).pending? k =
      (s.pending? k).map fun x => if x.id == a then { x with owner := some t } else x := by
  have hkey : (·.key.same k) ∘ (fun x : Creation =>
      if x.id == a then { x with owner := some t } else x) = (·.key.same k) := by
    funext x
    dsimp only [Function.comp]
    split <;> rfl
  rw [pending?, own, List.find?_map, hkey, pending?]

theorem isPending_own (s : Shared) (a b : Nat) (t : Tid) (k : Key) :
    (s.own a t).isPending k b = s.isPending k b := by
  rw [isPending, pending?_own, isPending]
  cases s.pending? k with
  | none => rfl
  | some x =>
    dsimp only [Option.map_some, Option.any_some]
    split <;> rfl

theorem isPending_withdraw {s : Shared} {k : Key} {a b : Nat} (hne : a ≠ b)
    (h : s.isPending k b = true) : (s.withdraw a).isPending k b = true := by
  obtain ⟨x, hx, rfl⟩ := isPending_iff.1 h
  refine isPending_iff.2 ⟨x, ?_, rfl⟩
  simp only [pending?, withdraw, List.find?_filter] at *
  generalize s.pending = pending at hx
  induction pending with
  | nil => cases hx
  | cons y ys ih =>
    rw [List.find?_cons] at hx ⊢
    cases hy : y.key.same k with
    | false =>
      rw [hy] at hx
      simpa [hy] using ih hx
    | true =>
      rw [hy] at hx
      cases hx
      simp [Ne.symm hne]

end Shared

namespace Point

/-- What the locks, the creations and the store look like after a turn of one call, as far as the
others rely on it. -/
structure Conduct (s : Shared) (p : Point) (s' : Shared) (p' : Point) : Prop where
  held : ∀ {a : Nat}, s.isHeld a = true → p.grip? ≠ some a → s'.isHeld a = true
  grip : ∀ {a : Nat}, p'.grip? = some a →
    s'.isHeld a = true ∧ (p.grip? = some a ∨ s.isHeld a = false)
  pending : ∀ {k : Key} {a : Nat}, s.isPending k a = true → p.grip? ≠ some a →
    s'.isPending k a = true
  flight : ∀ {k : Key} {a : Nat}, p'.flight? = some (k, a) → s'.isPending k a = true
  keys : s'.OnePerKey
  absent : ∀ x ∈ s'.pending, s'.store.contains x.key = false ∨ p'.landed? = some x.id ∨
    ∃ y ∈ s.pending, y.id = x.id ∧ p.landed? ≠ some y.id ∧
      (s.store.contains y.key = false → s'.store.contains x.key = false)

end Point

namespace Machine

structure Guarded (m : Machine) : Prop where
  held : ∀ {t : Tid} {c : Nat} {p : Point} {a : Nat}, m.Live t c p → p.grip? = some a →
    m.shared.isHeld a = true
  sole : ∀ {t u : Tid} {c d : Nat} {p q : Point} {a : Nat}, m.Live t c p → m.Live u d q →
    p.grip? = some a → q.grip? = some a → c = d
  pending : ∀ {t : Tid} {c : Nat} {p : Point} {k : Key} {a : Nat}, m.Live t c p →
    p.flight? = some (k, a) → m.shared.isPending k a = true
  keys : m.shared.OnePerKey
  absent : ∀ x ∈ m.shared.pending, m.shared.store.contains x.key = false ∨
    ∃ t c p, m.Live t c p ∧ p.landed? = some x.id

variable {m m' : Machine} {t u : Tid} {c d : Nat} {p q p' : Point} {rest : List Frame}

theorem Guarded.turn (hg : m.Guarded) (hn : m.Numbered) (hf : m.frames t = ⟨c, p⟩ :: rest)
    {s : Shared} (hc : Point.Conduct m.shared p s p') :
    Guarded ⟨s, m.calls.set t (⟨c, p'⟩ :: rest)⟩ where
  held h ha := by
    obtain ⟨rfl, rfl, rfl⟩ | ⟨h, hd⟩ := (hn.live_turn hf).1 h
    · exact (hc.grip ha).1
    · exact hc.held (hg.held h ha) fun hp => hd (hg.sole h (live_of_frames hf) ha hp)
  sole h h' ha ha' := by
    rw [hn.live_turn hf] at h h'
    -- no other call can grip what the turning call takes or keeps
    have other : ∀ {u d q a}, m.Live u d q → d ≠ c → q.grip? = some a → p'.grip? ≠ some a := by
      intro u d q a h hd ha hp'
      obtain ⟨-, hp | hh⟩ := hc.grip hp'
      · exact hd (hg.sole h (live_of_frames hf) ha hp)
      · simp [hg.held h ha] at hh
    obtain ⟨-, rfl, rfl⟩ | ⟨h, hd⟩ := h
    · obtain ⟨-, rfl, -⟩ | ⟨h', hd'⟩ := h'
      · rfl
      · exact absurd ha (other h' hd' ha')
    · obtain ⟨-, rfl, rfl⟩ | ⟨h', -⟩ := h'
      · exact absurd ha' (other h hd ha)
      · exact hg.sole h h' ha ha'
  pending h hk := by
    obtain ⟨rfl, rfl, rfl⟩ | ⟨h, hd⟩ := (hn.live_turn hf).1 h
    · exact hc.flight hk
    · exact hc.pending (hg.pending h hk) fun hp =>
        hd (hg.sole h (live_of_frames hf) (Point.grip_of_flight hk) hp)
  keys := hc.keys
  absent x hx := by
    obtain h | h | ⟨y, hy, hid, hl, hs⟩ := hc.absent x hx
    · exact .inl h
    · exact .inr ⟨t, c, p', (hn.live_turn hf).2 (.inl ⟨rfl, rfl, rfl⟩), h⟩
    · obtain h | ⟨u, d, q, hq, hlq⟩ := hg.absent y hy
      · exact .inl (hs h)
      · refine .inr ⟨u, d, q, (hn.live_turn hf).2 (.inr ⟨hq, ?_⟩), hid ▸ hlq⟩
        rintro rfl
        exact hl (hn.point_unique hq (live_of_frames hf) ▸ hlq)

theorem Guarded.call (hg : m.Guarded) (t : Tid) (op : Op) :
    (m.push t op (m.frames t)).1.Guarded := by
  have hop : op.start.grip? = none := by cases op <;> rfl
  have old : ∀ {u d q a}, (m.push t op (m.frames t)).1.Live u d q → q.grip? = some a →
      m.Live u d q := by
    intro u d q a h ha
    obtain ⟨-, -, rfl⟩ | h := live_call.1 h
    · simp [hop] at ha
    · exact h
  constructor
  case held => exact fun h ha => hg.held (old h ha) ha
  case sole => exact fun h h' ha ha' => hg.sole (old h ha) (old h' ha') ha ha'
  case pending => exact fun h hk => hg.pending (old h (Point.grip_of_flight hk)) hk
  case keys => exact hg.keys
  case absent =>
    intro x hx
    obtain h | ⟨u, d, q, hq, hl⟩ := hg.absent x hx
    · exact .inl h
    · exact .inr ⟨u, d, q, live_call.2 (.inr hq), hl⟩

theorem Guarded.leave (hg : m.Guarded) (hn : m.Numbered) (hf : m.frames t = ⟨c, p⟩ :: rest)
    (hp : p.landed? = none) : (m.setFrames t rest).Guarded where
  held h := hg.held ((hn.live_leave hf).1 h).1
  sole h h' := hg.sole ((hn.live_leave hf).1 h).1 ((hn.live_leave hf).1 h').1
  pending h := hg.pending ((hn.live_leave hf).1 h).1
  keys := hg.keys
  absent x hx := by
    obtain h | ⟨u, d, q, hq, hl⟩ := hg.absent x hx
    · exact .inl h
    · refine .inr ⟨u, d, q, (hn.live_leave hf).2 ⟨hq, ?_⟩, hl⟩
      rintro rfl
      rw [hn.point_unique hq (live_of_frames hf), hp] at hl
      cases hl

end Machine

namespace Shared

theorem OnePerKey.create {s : Shared} (hs : s.OnePerKey) {k : Key} (hk : s.pending? k = none) :
    (s.create k).OnePerKey := by
  have apart : ∀ x ∈ s.pending, x.key.same k = false := by
    simpa [pending?] using hk
  intro x hx y hy hxy
  simp only [Shared.create, List.mem_append, List.mem_singleton] at hx hy
  obtain hx | rfl := hx <;> obtain hy | rfl := hy
  · exact hs x hx y hy hxy
  · simp [apart x hx] at hxy
  · rw [Key.same_comm, apart y hy] at hxy
    cases hxy
  · rfl

theorem mem_own {s : Shared} {a : Nat} {t : Tid} {x : Creation} (h : x ∈ (s.own a t).pending) :
    ∃ y ∈ s.pending, y.key = x.key ∧ y.id = x.id := by
  obtain ⟨y, hy, rfl⟩ := List.mem_map.1 h
  refine ⟨y, hy, ?_⟩
  split <;> exact ⟨rfl, rfl⟩

theorem OnePerKey.own {s : Shared} (hs : s.OnePerKey) (a : Nat) (t : Tid) :
    (s.own a t).OnePerKey := by
  intro x hx y hy hxy
  obtain ⟨x', hx', hkx, hix⟩ := mem_own hx
  obtain ⟨y', hy', hky, hiy⟩ := mem_own hy
  rw [← hix, ← hiy]
  exact hs x' hx' y' hy' (hkx ▸ hky ▸ hxy)

theorem mem_withdraw {s : Shared} {a : Nat} {x : Creation} :
    x ∈ (s.withdraw a).pending ↔ x ∈ s.pending ∧ x.id ≠ a := by
  simp [withdraw]

theorem OnePerKey.withdraw {s : Shared} (hs : s.OnePerKey) (a : Nat) :
    (s.withdraw a).OnePerKey :=
  fun x hx y hy => hs x (mem_withdraw.1 hx).1 y (mem_withdraw.1 hy).1

theorem OnePerKey.id_of_isPending {s : Shared} (hs : s.OnePerKey) {k : Key} {a : Nat}
    (hp : s.isPending k a = true) {x : Creation} (hx : x ∈ s.pending)
    (hk : x.key.same k = true) : x.id = a := by
  obtain ⟨y, hy, rfl⟩ := isPending_iff.1 hp
  obtain ⟨hm, hyk⟩ := mem_of_pending? hy
  exact hs x hx y hm (Key.same_trans hk (Key.same_symm hyk))

end Shared

namespace Point

variable {s s' : Shared} {p p' : Point}

theorem Conduct.quiet (hp : s'.pending = s.pending) (hh : s'.held = s.held)
    (hs : ∀ k, s.store.contains k = false → s'.store.contains k = false) (hk : s.OnePerKey)
    (hl : p.landed? = none) (hg : p'.grip? = none) : Conduct s p s' p' where
  held h _ := by simpa only [Shared.isHeld, hh] using h
  grip h := by simp [hg] at h
  pending h _ := by simpa only [Shared.isPending, Shared.pending?, hp] using h
  flight h := by
    have := grip_of_flight h
    simp [hg] at this
  keys := by simpa only [Shared.OnePerKey, hp] using hk
  absent x hx := .inr (.inr ⟨x, hp ▸ hx, rfl, by simp [hl], hs x.key⟩)

theorem Conduct.stay (hk : s.OnePerKey) (hg : p'.grip? = p.grip?)
    (hh : ∀ {a}, p.grip? = some a → s.isHeld a = true)
    (hf : ∀ {k a}, p'.flight? = some (k, a) → s.isPending k a = true) (hl : p.landed? = none) :
    Conduct s p s p' where
  held h _ := h
  grip h := ⟨hh (hg ▸ h), .inl (hg ▸ h)⟩
  pending h _ := h
  flight := hf
  keys := hk
  absent x hx := .inr (.inr ⟨x, hx, rfl, by simp [hl], id⟩)

theorem Conduct.letGo {a : Nat} (hk : s.OnePerKey) (hp : p.grip? = some a) (hl : p.landed? = none)
    (hg : p'.grip? = none) : Conduct s p (s.letGo a) p' where
  held h hne := by
    rwa [Shared.isHeld_letGo]
    rintro rfl
    exact hne hp
  grip h := by simp [hg] at h
  pending h _ := h
  flight h := by
    have := grip_of_flight h
    simp [hg] at this
  keys := hk
  absent x hx := .inr (.inr ⟨x, hx, rfl, by simp [hl], id⟩)

theorem Conduct.insert {k : Key} {a : Nat} {l : Lease} (hk : s.OnePerKey)
    (hh : s.isHeld a = true) (hp : s.isPending k a = true) :
    Conduct s (.fetch (.insert k a l)) (s.put k l)
      (.fetch (.withdraw k a (.ok (.value l.value)))) where
  held h _ := h
  grip hb := by
    cases hb
    exact ⟨hh, .inl rfl⟩
  pending h _ := h
  flight hb := by
    cases hb
    exact hp
  keys := hk
  absent x hx := by
    cases hs : k.same x.key with
    | true =>
      have := hk.id_of_isPending hp hx (Key.same_symm hs)
      exact .inr (.inl (congrArg some this.symm))
    | false =>
      refine .inr (.inr ⟨x, hx, rfl, by simp [landed?, Fetch.landed?], fun h => ?_⟩)
      rw [Shared.contains_put, h, hs]
      rfl

end Point

theorem Fetch.Goes.conduct {s s' : Shared} {t : Tid} {call : Nat} {f : Fetch}
    {hs : List Happening} {c : Course Fetch} (h : f.Goes s t call hs s' c)
    (hh : ∀ {a}, f.grip? = some a → s.isHeld a = true)
    (hp : ∀ {k a}, f.flight? = some (k, a) → s.isPending k a = true) (hk : s.OnePerKey) :
    Point.Conduct s (.fetch f) s' (c.map .fetch).next := by
  cases h with
  | refused | coerced | unkeyed | missed | recursive | joined =>
    exact .quiet rfl rfl (fun _ h => h) hk rfl rfl
  | found _ hr =>
    have hr := Store.contains_of_find? hr
    exact .quiet rfl rfl (fun k' h => by rwa [Shared.contains_put_of_contains hr]) hk rfl rfl
  | foundLate hr =>
    have hr := Store.contains_of_find? hr
    exact .quiet rfl rfl (fun k' h => by rwa [Shared.contains_put_of_contains hr]) hk rfl rfl
  | @created k _ hr hp' =>
    constructor
    case held => exact fun h _ => h
    case grip => exact fun h => by cases h
    case pending => exact fun h _ => Shared.isPending_create h
    case flight => exact fun h => by cases h
    case keys => exact hk.create hp'
    case absent =>
      intro x hx
      obtain hx | hx := List.mem_append.1 hx
      · exact .inr (.inr ⟨x, hx, rfl, by simp [Point.landed?, landed?], id⟩)
      · obtain rfl := List.mem_singleton.1 hx
        exact .inl (Store.find?_eq_none_iff.1 hr)
  | @acquired k _ a hfree =>
    constructor
    case held => exact fun h _ => by simp [Shared.isHeld_hold, h]
    case grip =>
      intro b hb
      cases hb
      exact ⟨by simp [Shared.isHeld_hold], .inr hfree⟩
    case pending => exact fun h _ => h
    case flight => exact fun h => by cases h
    case keys => exact hk
    case absent => exact fun x hx => .inr (.inr ⟨x, hx, rfl, by simp [Point.landed?, landed?], id⟩)
  | @claimed k _ a hpend =>
    constructor
    case held => exact fun h _ => h
    case grip => exact fun hb => ⟨hh hb, .inl hb⟩
    case pending => exact fun h _ => by rwa [Shared.isPending_own]
    case flight =>
      intro k' b hb
      cases hb
      rwa [Shared.isPending_own]
    case keys => exact hk.own a t
    case absent =>
      intro x hx
      obtain ⟨y, hy, hkey, hid⟩ := Shared.mem_own hx
      exact .inr (.inr ⟨y, hy, hid, by simp [Point.landed?, landed?], fun h => hkey ▸ h⟩)
  | stale => exact .stay hk rfl hh (fun h => by cases h) rfl
  | supplied v => exact .stay hk rfl hh hp rfl
  | unsupplied f => exact .stay hk rfl hh hp rfl
  | @inserted k a l _ =>
    exact .insert hk (hh rfl) (hp rfl)
  | @overwritten k a l _ =>
    exact .insert hk (hh rfl) (hp rfl)
  | @withdrawn k a o hpend =>
    constructor
    case held => exact fun h _ => h
    case grip => exact fun hb => ⟨hh hb, .inl hb⟩
    case pending =>
      intro k' b h hne
      refine Shared.isPending_withdraw ?_ h
      rintro rfl
      exact hne rfl
    case flight => exact fun h => by cases h
    case keys => exact hk.withdraw a
    case absent =>
      intro x hx
      obtain ⟨hx, hne⟩ := Shared.mem_withdraw.1 hx
      refine .inr (.inr ⟨x, hx, rfl, fun hl => hne ?_, id⟩)
      have := Point.grip_of_landed hl
      cases this
      rfl
  | lost hpend => simp [hp rfl] at hpend
  | released => exact .letGo hk rfl rfl rfl
  | retried => exact .letGo hk rfl rfl rfl

theorem Point.Goes.conduct {s s' : Shared} {t : Tid} {call : Nat} {p : Point}
    {hs : List Happening} {c : Course Point} (h : p.Goes s t call hs s' c)
    (hh : ∀ {a}, p.grip? = some a → s.isHeld a = true)
    (hp : ∀ {k a}, p.flight? = some (k, a) → s.isPending k a = true) (hk : s.OnePerKey) :
    Conduct s p s' c.next := by
  have erased : ∀ k k', s.store.contains k' = false → (s.erase k).store.contains k' = false := by
    intro k k' h
    simp [Shared.erase, Store.contains_erase, h]
  cases h with
  | fetch h => exact h.conduct hh hp hk
  | erase h =>
    cases h with
    | @popped _ k => exact .quiet rfl rfl (erased k) hk rfl rfl
    | _ => exact .quiet rfl rfl (fun _ => id) hk rfl rfl
  | clear h =>
    cases h with
    | @popped k => exact .quiet rfl rfl (erased k) hk rfl rfl
    | _ => exact .quiet rfl rfl (fun _ => id) hk rfl rfl
  | sweep h =>
    cases h with
    | @deleted _ k => exact .quiet rfl rfl (erased k) hk rfl rfl
    | _ => exact .quiet rfl rfl (fun _ => id) hk rfl rfl
  | _ => exact .quiet rfl rfl (fun _ => id) hk rfl rfl

namespace Machine

variable {m m' : Machine} {t : Tid} {c : Nat} {p : Point}

theorem Guarded.start (policy : Policy) (clock interval : Int) :
    (Machine.start policy clock interval).Guarded where
  held h := by simp [Live] at h
  sole h := by simp [Live] at h
  pending h := by simp [Live] at h
  keys x hx := by simp [Machine.start, Shared.start] at hx
  absent x hx := by simp [Machine.start, Shared.start] at hx

theorem Change.guarded {es : List Timed} (h : Change m es m') (hn : m.Numbered)
    (hg : m.Guarded) : m'.Guarded := by
  cases h with
  | advance ns => exact ⟨hg.held, hg.sole, hg.pending, hg.keys, hg.absent⟩
  | call _ => exact hg.call ..
  | turn hf hp =>
    have hl := live_of_frames hf
    exact hg.turn hn hf (hp.conduct (hg.held hl) (hg.pending hl) hg.keys)
  | leave hf => exact hg.leave hn hf rfl
  | @fail t call p rest f hf hp =>
    have hnone : p.grip? = none ∧ p.landed? = none := by
      cases p with
      | fetch f =>
        cases f with
        | lookup => exact ⟨rfl, rfl⟩
        | _ => cases hp
      | _ => exact ⟨rfl, rfl⟩
    exact hg.turn hn hf (.quiet rfl rfl (fun _ => id) hg.keys hnone.2 rfl)

theorem Guarded.absent_of_making (hg : m.Guarded) (hn : m.Numbered) {k : Key}
    (h : m.Live t c p) (hk : p.making? = some k) : m.shared.store.contains k = false := by
  obtain ⟨a, hf, hl⟩ := Point.flight_of_making hk
  obtain ⟨x, hx, rfl⟩ := Shared.isPending_iff.1 (hg.pending h hf)
  obtain ⟨hm, hxk⟩ := Shared.mem_of_pending? hx
  obtain habs | ⟨u, d, q, hq, hql⟩ := hg.absent x hm
  · rwa [← Store.contains_congr _ hxk]
  · -- the lock is held once, so the call that put the record would be this one
    obtain rfl := hg.sole h hq (Point.grip_of_flight hf) (Point.grip_of_landed hql)
    rw [hn.point_unique hq h, hl] at hql
    cases hql

theorem Guarded.making_unique (hg : m.Guarded) {u : Tid} {d : Nat} {q : Point} {k k' : Key}
    (hp : m.Live t c p) (hq : m.Live u d q) (hk : p.making? = some k) (hk' : q.making? = some k')
    (hs : k.same k' = true) : c = d := by
  obtain ⟨a, hf, -⟩ := Point.flight_of_making hk
  obtain ⟨b, hf', -⟩ := Point.flight_of_making hk'
  obtain ⟨x, hx, rfl⟩ := Shared.isPending_iff.1 (hg.pending hp hf)
  obtain ⟨y, hy, rfl⟩ := Shared.isPending_iff.1 (hg.pending hq hf')
  rw [Shared.pending?_congr _ hs, hy] at hx
  cases hx
  exact hg.sole hp hq (Point.grip_of_flight hf) (Point.grip_of_flight hf')

end Machine

end Lapse
