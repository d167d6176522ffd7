import Lapse.Proofs.Replay

/-!
Custody. A lock that is held is held by a call in progress; a pending creation has a call that is
to withdraw it; its owner is the thread that makes the key. Calls that joined one creation joined
it for one key.
-/

namespace Lapse

namespace Fetch

def joined? : Fetch → Option Nat
  | .acquire _ _ a => some a
  | .claim _ _ a => some a
  | .supply _ _ a => some a
  | .insert _ a _ => some a
  | .withdraw _ a _ => some a
  | .release a _ => some a
  | .again _ _ a => some a
  | _ => none

def stake? : Fetch → Option (Key × Nat)
  | .acquire k _ a => some (k, a)
  | .claim k _ a => some (k, a)
  | .supply k _ a => some (k, a)
  | .insert k a _ => some (k, a)
  | .withdraw k a _ => some (k, a)
  | .again k _ a => some (k, a)
  | _ => none

/-- The creation that a fetch is to withdraw, should it still be pending. -/
def tends? : Fetch → Option Nat
  | .acquire _ _ a => some a
  | .claim _ _ a => some a
  | .supply _ _ a => some a
  | .insert _ a _ => some a
  | .withdraw _ a _ => some a
  | _ => none

end Fetch

namespace Point

def joined? : Point → Option Nat
  | .fetch f => f.joined?
  | _ => none

def stake? : Point → Option (Key × Nat)
  | .fetch f => f.stake?
  | _ => none

def tends? : Point → Option Nat
  | .fetch f => f.tends?
  | _ => none

theorem joined_of_grip {p : Point} {a : Nat} (h : p.grip? = some a) : p.joined? = some a := by
  cases p with
  | fetch f => cases f <;> cases h <;> rfl
  | _ => cases h

theorem joined_of_tends {p : Point} {a : Nat} (h : p.tends? = some a) : p.joined? = some a := by
  cases p with
  | fetch f => cases f <;> cases h <;> rfl
  | _ => cases h

theorem joined_of_stake {p : Point} {k : Key} {a : Nat} (h : p.stake? = some (k, a)) :
    p.joined? = some a := by
  cases p with
  | fetch f => cases f <;> cases h <;> rfl
  | _ => cases h

theorem stake_of_flight {p : Point} {k : Key} {a : Nat} (h : p.flight? = some (k, a)) :
    p.stake? = some (k, a) := by
  cases p with
  | fetch f => cases f <;> cases h <;> rfl
  | _ => cases h

end Point

def Shared.OwnedBy (s : Shared) (k : Key) (a : Nat) (t : Tid) : Prop :=
  ∃ x, s.pending? k = some x ∧ x.id = a ∧ x.owner = some t

namespace Point

/-- What a turn does to locks and creations, and whose they are after it. -/
structure Handles (s : Shared) (t : Tid) (p : Point) (hs : List Happening) (s' : Shared)
    (p' : Point) : Prop where
  held : ∀ {a : Nat} {u : Tid}, (a, u) ∈ s'.held → u = t ∧ p'.grip? = some a ∨
    (a, u) ∈ s.held ∧ (p.grip? = some a → p'.grip? = some a)
  tended : ∀ {x : Creation}, x ∈ s'.pending → p'.tends? = some x.id ∨
    (∃ y ∈ s.pending, y.id = x.id) ∧ p.tends? ≠ some x.id
  mine : ∀ {k : Key} {a : Nat}, p'.flight? = some (k, a) → s'.OwnedBy k a t
  others : ∀ {k : Key} {a : Nat} {u : Tid}, s.OwnedBy k a u → p.grip? ≠ some a →
    s'.OwnedBy k a u
  owner : ∀ {x : Creation} {u : Tid}, x ∈ s'.pending → x.owner = some u →
    (u = t ∧ ∃ k, p'.flight? = some (k, x.id)) ∨ ∃ y ∈ s.pending, y.id = x.id ∧
      y.owner = some u ∧ ∀ k, p.flight? = some (k, x.id) → ∃ k, p'.flight? = some (k, x.id)
  made : ∀ {x : Creation}, x ∈ s'.pending → hs = [.joined x.key x.id] ∨
    ∃ y ∈ s.pending, y.key = x.key ∧ y.id = x.id
  joined : ∀ {a : Nat}, p'.joined? = some a →
    (∃ k, hs = [.joined k a] ∧ p'.stake? = some (k, a)) ∨
      p.joined? = some a ∧ ∀ k, p'.stake? = some (k, a) → p.stake? = some (k, a)
  joins : ∀ {k : Key} {a : Nat}, .joined k a ∈ hs → hs = [.joined k a] ∧
    (a = s.fresh ∧ a < s'.fresh ∨ ∃ x ∈ s.pending, x.id = a ∧ x.key.same k = true)

variable {s s' : Shared} {t : Tid} {p p' : Point} {hs : List Happening}

theorem Handles.quiet (hp : s'.pending = s.pending) (hh : s'.held = s.held)
    (hs' : ∀ k a, .joined k a ∉ hs) (hj : p.joined? = none) (hj' : p'.joined? = none) :
    Handles s t p hs s' p' where
  held h := by
    refine .inr ⟨hh ▸ h, fun hg => ?_⟩
    simp [joined_of_grip hg] at hj
  tended {x} h := by
    refine .inr ⟨⟨x, hp ▸ h, rfl⟩, fun ht => ?_⟩
    simp [joined_of_tends ht] at hj
  mine h := by simp [joined_of_stake (stake_of_flight h)] at hj'
  others h _ := by simpa only [Shared.OwnedBy, Shared.pending?, hp] using h
  owner {x u} h ho := by
    refine .inr ⟨x, hp ▸ h, rfl, ho, fun k hk => ?_⟩
    simp [joined_of_stake (stake_of_flight hk)] at hj
  made {x} h := .inr ⟨x, hp ▸ h, rfl, rfl⟩
  joined h := by simp [h] at hj'
  joins h := absurd h (hs' _ _)

theorem Handles.stay (hp : s'.pending = s.pending) (hh : s'.held = s.held)
    (hs' : ∀ k a, .joined k a ∉ hs) (hg : p'.grip? = p.grip?) (ht : p'.tends? = p.tends?)
    (hf : p'.flight? = p.flight?) (hk : p'.stake? = p.stake?) (hj : p'.joined? = p.joined?)
    (ho : ∀ {k a}, p.flight? = some (k, a) → s.OwnedBy k a t) :
    Handles s t p hs s' p' where
  held h := .inr ⟨hh ▸ h, fun h => hg ▸ h⟩
  tended {x} h := by
    by_cases hx : p.tends? = some x.id
    · exact .inl (ht ▸ hx)
    · exact .inr ⟨⟨x, hp ▸ h, rfl⟩, hx⟩
  mine h := by simpa only [Shared.OwnedBy, Shared.pending?, hp] using ho (hf ▸ h)
  others h _ := by simpa only [Shared.OwnedBy, Shared.pending?, hp] using h
  owner {x u} h ho := .inr ⟨x, hp ▸ h, rfl, ho, fun k h => ⟨k, hf ▸ h⟩⟩
  made {x} h := .inr ⟨x, hp ▸ h, rfl, rfl⟩
  joined h := .inr ⟨hj ▸ h, fun _ h => hk ▸ h⟩
  joins h := absurd h (hs' _ _)

theorem Handles.steady (hp : s'.pending = s.pending) (hs' : ∀ k a, .joined k a ∉ hs)
    (hf : p.flight? = none) (hf' : p'.flight? = none)
    (held : ∀ {a u}, (a, u) ∈ s'.held → u = t ∧ p'.grip? = some a ∨
      (a, u) ∈ s.held ∧ (p.grip? = some a → p'.grip? = some a))
    (tended : ∀ x ∈ s.pending, p.tends? = some x.id → p'.tends? = some x.id)
    (joined : ∀ {a}, p'.joined? = some a →
      p.joined? = some a ∧ ∀ k, p'.stake? = some (k, a) → p.stake? = some (k, a)) :
    Handles s t p hs s' p' where
  held := held
  tended {x} h := by
    by_cases hx : p.tends? = some x.id
    · exact .inl (tended x (hp ▸ h) hx)
    · exact .inr ⟨⟨x, hp ▸ h, rfl⟩, hx⟩
  mine h := by simp [h] at hf'
  others h _ := by simpa only [Shared.OwnedBy, Shared.pending?, hp] using h
  owner {x u} h ho := .inr ⟨x, hp ▸ h, rfl, ho, fun k hk => by simp [hk] at hf⟩
  made {x} h := .inr ⟨x, hp ▸ h, rfl, rfl⟩
  joined h := .inr (joined h)
  joins h := absurd h (hs' _ _)

theorem Handles.letGo {a : Nat} (hs' : ∀ k b, .joined k b ∉ hs) (hg : p.grip? = some a)
    (hf : p.flight? = none) (ht : p.tends? = none) (hj : p'.joined? = none) :
    Handles s t p hs (s.letGo a) p' := by
  have hnone : ∀ {k b}, p'.flight? ≠ some (k, b) := by
    intro k b h
    simp [joined_of_stake (stake_of_flight h)] at hj
  refine .steady rfl hs' hf ?_ ?_ ?_ ?_
  · exact Option.eq_none_iff_forall_ne_some.2 fun _ => hnone
  · intro b u h
    obtain ⟨h, hne⟩ : (b, u) ∈ s.held ∧ b ≠ a := by simpa [Shared.letGo] using h
    refine .inr ⟨h, fun hb => ?_⟩
    rw [hg] at hb
    cases hb
    exact absurd rfl hne
  · intro x _ h
    simp [ht] at h
  · intro b h
    simp [hj] at h

end Point

namespace Shared

theorem mem_hold {s : Shared} {a b : Nat} {t u : Tid} :
    (b, u) ∈ (s.hold a t).held ↔ b = a ∧ u = t ∨ (b, u) ∈ s.held := by
  simp [hold]

theorem mem_create {s : Shared} {k : Key} {x : Creation} :
    x ∈ (s.create k).pending ↔ x ∈ s.pending ∨ x = ⟨k, s.fresh, none⟩ := by
  simp [create]

theorem OwnedBy.create {s : Shared} {k k' : Key} {a : Nat} {u : Tid} (h : s.OwnedBy k' a u) :
    (s.create k).OwnedBy k' a u := by
  obtain ⟨x, hx, h⟩ := h
  refine ⟨x, ?_, h⟩
  simp only [pending?] at hx
  simp [pending?, Shared.create, List.find?_append, hx]

theorem OwnedBy.own {s : Shared} {k : Key} {a b : Nat} {t u : Tid} (h : s.OwnedBy k b u)
    (hne : a ≠ b) : (s.own a t).OwnedBy k b u := by
  obtain ⟨x, hx, rfl, ho⟩ := h
  refine ⟨x, ?_, rfl, ho⟩
  simp [pending?_own, hx, Ne.symm hne]

theorem ownedBy_own {s : Shared} {k : Key} {a : Nat} (t : Tid) (h : s.isPending k a = true) :
    (s.own a t).OwnedBy k a t := by
  obtain ⟨x, hx, rfl⟩ := isPending_iff.1 h
  exact ⟨{ x with owner := some t }, by simp [pending?_own, hx], rfl, rfl⟩

theorem OwnedBy.withdraw {s : Shared} {k : Key} {a b : Nat} {u : Tid} (h : s.OwnedBy k b u)
    (hne : a ≠ b) : (s.withdraw a).OwnedBy k b u := by
  obtain ⟨x, hx, rfl, ho⟩ := h
  -- the first creation of the key is not the one withdrawn, so it is found still
  have hfound : (s.withdraw a).pending? k = some x := by
    obtain ⟨hk, as, bs, hsplit, has⟩ := List.find?_eq_some_iff_append.1 hx
    refine List.find?_eq_some_iff_append.2
      ⟨hk, as.filter (·.id != a), bs.filter (·.id != a), ?_, ?_⟩
    · simp [Shared.withdraw, hsplit, Ne.symm hne]
    · intro y hy
      exact has y (List.mem_filter.1 hy).1
  exact ⟨x, hfound, rfl, ho⟩

theorem OwnedBy.isPending {s : Shared} {k : Key} {a : Nat} {t : Tid} (h : s.OwnedBy k a t) :
    s.isPending k a = true := by
  obtain ⟨x, hx, ha, -⟩ := h
  exact isPending_iff.2 ⟨x, hx, ha⟩

end Shared

theorem Fetch.Goes.handles {s s' : Shared} {t : Tid} {call : Nat} {f : Fetch}
    {hs : List Happening} {c : Course Fetch} (h : f.Goes s t call hs s' c)
    (ho : ∀ {k a}, f.flight? = some (k, a) → s.OwnedBy k a t)
    (hp : ∀ {k a}, f.stake? = some (k, a) → ∀ x ∈ s.pending, x.id = a → s.isPending k a = true) :
    Point.Handles s t (.fetch f) hs s' (c.map .fetch).next := by
  cases h with
  | refused | coerced | unkeyed | missed | recursive => exact .quiet rfl rfl (by simp) rfl rfl
  | found | foundLate => exact .quiet rfl rfl (by simp) rfl rfl
  | supplied | unsupplied => exact .stay rfl rfl (by simp) rfl rfl rfl rfl rfl ho
  | inserted | overwritten => exact .stay rfl rfl (by simp) rfl rfl rfl rfl rfl ho
  | @created k _ _ hnone =>
    constructor
    case held => exact fun h => .inr ⟨h, fun hg => by cases hg⟩
    case tended =>
      intro x hx
      obtain hx | rfl := Shared.mem_create.1 hx
      · exact .inr ⟨⟨x, hx, rfl⟩, by simp [Point.tends?, tends?]⟩
      · exact .inl rfl
    case mine => exact fun h => by cases h
    case others => exact fun h _ => h.create
    case owner =>
      intro x u hx hu
      obtain hx | rfl := Shared.mem_create.1 hx
      · exact .inr ⟨x, hx, rfl, hu, fun k hk => by cases hk⟩
      · cases hu
    case made =>
      intro x hx
      obtain hx | rfl := Shared.mem_create.1 hx
      · exact .inr ⟨x, hx, rfl, rfl⟩
      · exact .inl rfl
    case joined =>
      intro a ha
      cases ha
      exact .inl ⟨k, rfl, rfl⟩
    case joins =>
      intro k' a h
      cases List.mem_singleton.1 h
      exact ⟨rfl, .inl ⟨rfl, Nat.lt_succ_self _⟩⟩
  | @joined k _ x _ hx _ =>
    have hx := Shared.mem_of_pending? hx
    constructor
    case held => exact fun h => .inr ⟨h, fun hg => by cases hg⟩
    case tended => exact fun {y} hy => .inr ⟨⟨y, hy, rfl⟩, by simp [Point.tends?, tends?]⟩
    case mine => exact fun h => by cases h
    case others => exact fun h _ => h
    case owner => exact fun {y u} hy hu => .inr ⟨y, hy, rfl, hu, fun k hk => by cases hk⟩
    case made => exact fun {y} hy => .inr ⟨y, hy, rfl, rfl⟩
    case joined =>
      intro a ha
      cases ha
      exact .inl ⟨k, rfl, rfl⟩
    case joins =>
      intro k' a h
      cases List.mem_singleton.1 h
      exact ⟨rfl, .inr ⟨x, hx.1, rfl, hx.2⟩⟩
  | @acquired k _ a _ =>
    refine .steady rfl (by simp) rfl rfl ?_ (fun _ _ h => h) fun h => ⟨h, fun _ => id⟩
    intro b u h
    obtain ⟨rfl, rfl⟩ | h := Shared.mem_hold.1 h
    · exact .inl ⟨rfl, rfl⟩
    · exact .inr ⟨h, fun hg => by cases hg⟩
  | @claimed k _ a hpend =>
    constructor
    case held => exact fun h => .inr ⟨h, id⟩
    case tended =>
      intro x hx
      obtain ⟨y, hy, -, hid⟩ := Shared.mem_own hx
      by_cases ha : a = x.id
      · exact .inl (congrArg some ha)
      · exact .inr ⟨⟨y, hy, hid⟩, by simpa [Point.tends?, tends?] using ha⟩
    case mine =>
      intro k' b h
      cases h
      exact Shared.ownedBy_own t hpend
    case others =>
      intro k' b u h hne
      refine h.own ?_
      rintro rfl
      exact hne rfl
    case owner =>
      intro x u hx hu
      obtain ⟨y, hy, rfl⟩ := List.mem_map.1 hx
      by_cases ha : y.id = a
      · simp only [ha, beq_self_eq_true, if_true] at hu ⊢
        cases hu
        exact .inl ⟨rfl, k, rfl⟩
      · simp only [beq_eq_false_iff_ne.2 ha, Bool.false_eq_true, if_false] at hu ⊢
        exact .inr ⟨y, hy, rfl, hu, fun k hk => by cases hk⟩
    case made =>
      intro x hx
      obtain ⟨y, hy, hkey, hid⟩ := Shared.mem_own hx
      exact .inr ⟨y, hy, hkey, hid⟩
    case joined => exact fun h => .inr ⟨h, fun _ => id⟩
    case joins => exact fun h => by simp at h
  | @stale k _ a hpend =>
    refine .steady rfl (by simp) rfl rfl (fun h => .inr ⟨h, id⟩) ?_ fun h => ⟨h, fun _ => id⟩
    intro x hx h
    cases h
    rw [hp rfl x hx rfl] at hpend
    cases hpend
  | @withdrawn k a o _ =>
    constructor
    case held => exact fun h => .inr ⟨h, id⟩
    case tended =>
      intro x hx
      obtain ⟨hx, hne⟩ := Shared.mem_withdraw.1 hx
      refine .inr ⟨⟨x, hx, rfl⟩, ?_⟩
      simpa [Point.tends?, tends?] using Ne.symm hne
    case mine => exact fun h => by cases h
    case others =>
      intro k' b u h hne
      refine h.withdraw ?_
      rintro rfl
      exact hne rfl
    case owner =>
      intro x u hx hu
      obtain ⟨hx, hne⟩ := Shared.mem_withdraw.1 hx
      refine .inr ⟨x, hx, rfl, hu, fun k' hk => ?_⟩
      cases hk
      exact absurd rfl hne
    case made => exact fun {y} hy => .inr ⟨y, (Shared.mem_withdraw.1 hy).1, rfl, rfl⟩
    case joined => exact fun h => .inr ⟨h, fun k hk => by cases hk⟩
    case joins => exact fun h => by simp at h
  | lost hpend => simp [(ho rfl).isPending] at hpend
  | released => exact .letGo (by simp) rfl rfl rfl rfl
  | retried => exact .letGo (by simp) rfl rfl rfl rfl

theorem Point.Goes.handles {s s' : Shared} {t : Tid} {call : Nat} {p : Point}
    {hs : List Happening} {c : Course Point} (h : p.Goes s t call hs s' c)
    (ho : ∀ {k a}, p.flight? = some (k, a) → s.OwnedBy k a t)
    (hp : ∀ {k a}, p.stake? = some (k, a) → ∀ x ∈ s.pending, x.id = a → s.isPending k a = true) :
    Handles s t p hs s' c.next := by
  cases h with
  | fetch h => exact h.handles ho hp
  | erase h => cases h <;> exact .quiet rfl rfl (by simp) rfl rfl
  | clear h => cases h <;> exact .quiet rfl rfl (by simp) rfl rfl
  | sweep h => cases h <;> exact .quiet rfl rfl (by simp) rfl rfl
  | _ => exact .quiet rfl rfl (by simp) rfl rfl

namespace Machine

structure Custody (es : List Timed) (m : Machine) : Prop where
  held : ∀ {a : Nat} {u : Tid}, (a, u) ∈ m.shared.held →
    ∃ c p, m.Live u c p ∧ p.grip? = some a
  tended : ∀ x ∈ m.shared.pending, ∃ t c p, m.Live t c p ∧ p.tends? = some x.id
  owned : ∀ {t : Tid} {c : Nat} {p : Point} {k : Key} {a : Nat}, m.Live t c p →
    p.flight? = some (k, a) → m.shared.OwnedBy k a t
  owner : ∀ {x : Creation} {u : Tid}, x ∈ m.shared.pending → x.owner = some u →
    ∃ c p k, m.Live u c p ∧ p.flight? = some (k, x.id)
  joined : ∀ {t : Tid} {c : Nat} {p : Point} {a : Nat}, m.Live t c p → p.joined? = some a →
    ∃ e ∈ es, ∃ k, e.thread = t ∧ e.call = c ∧ e.what = .joined k a ∧
      ∀ k', p.stake? = some (k', a) → k' = k
  made : ∀ x ∈ m.shared.pending, ∃ e ∈ es, e.what = .joined x.key x.id
  agree : ∀ {e e' : Timed} {k k' : Key} {a : Nat}, e ∈ es → e' ∈ es → e.what = .joined k a →
    e'.what = .joined k' a → k.same k' = true
  bound : ∀ {e : Timed} {k : Key} {a : Nat}, e ∈ es → e.what = .joined k a →
    a < m.shared.fresh

variable {m m' : Machine} {es es' : List Timed} {t : Tid} {c : Nat} {p : Point}
  {rest : List Frame}

theorem Custody.idle (hc : m.Custody es) (hm : ∀ t, m.frames t = []) :
    m.shared.pending = [] ∧ m.shared.held = [] := by
  constructor
  · refine List.eq_nil_iff_forall_not_mem.2 fun x hx => ?_
    obtain ⟨t, c, p, hl, -⟩ := hc.tended x hx
    simp [Live, hm] at hl
  · refine List.eq_nil_iff_forall_not_mem.2 fun x hx => ?_
    obtain ⟨c, p, hl, -⟩ := hc.held hx
    simp [Live, hm] at hl

theorem Custody.isPending (hc : m.Custody es) (hk : m.shared.OnePerKey) {k : Key} {a : Nat}
    (h : m.Live t c p) (hs : p.stake? = some (k, a)) {x : Creation}
    (hx : x ∈ m.shared.pending) (hid : x.id = a) : m.shared.isPending k a = true := by
  obtain ⟨e, he, k₀, -, -, hw, hk₀⟩ := hc.joined h (Point.joined_of_stake hs)
  obtain rfl := hk₀ k hs
  obtain ⟨e', he', hw'⟩ := hc.made x hx
  have hsame : x.key.same k = true := hc.agree he' he hw' (hid ▸ hw)
  have hsome : (m.shared.pending? k).isSome = true := List.find?_isSome.2 ⟨x, hx, hsame⟩
  obtain ⟨y, hy⟩ := Option.isSome_iff_exists.1 hsome
  obtain ⟨hm, hyk⟩ := Shared.mem_of_pending? hy
  refine Shared.isPending_iff.2 ⟨y, hy, ?_⟩
  rw [← hid]
  exact hk y hm x hx (Key.same_trans hyk (Key.same_symm hsame))

theorem Custody.turn (hc : m.Custody es) (hn : m.Numbered) (hg : m.Guarded)
    (hf : m.frames t = ⟨c, p⟩ :: rest) {hs : List Happening} {s : Shared} {course : Course Point}
    (hp : p.Goes m.shared t c hs s course) :
    Custody (es ++ m.shared.tell t c hs) ⟨s, m.calls.set t (⟨c, course.next⟩ :: rest)⟩ := by
  have hl := live_of_frames hf
  have hh := hp.handles (hc.owned hl) fun hs x hx hid => hc.isPending hg.keys hl hs hx hid
  have new : Live ⟨s, m.calls.set t (⟨c, course.next⟩ :: rest)⟩ t c course.next :=
    (hn.live_turn hf).2 (.inl ⟨rfl, rfl, rfl⟩)
  have old : ∀ {u d q}, m.Live u d q → d ≠ c →
      Live ⟨s, m.calls.set t (⟨c, course.next⟩ :: rest)⟩ u d q :=
    fun h hne => (hn.live_turn hf).2 (.inr ⟨h, hne⟩)
  have tell : ∀ {h}, h ∈ hs → ⟨⟨t, c, h⟩, m.shared.clock⟩ ∈ es ++ m.shared.tell t c hs :=
    fun h => List.mem_append_right _ (List.mem_map_of_mem h)
  constructor
  case held =>
    intro a u h
    obtain ⟨rfl, hgrip⟩ | ⟨h, hkeep⟩ := hh.held h
    · exact ⟨c, _, new, hgrip⟩
    · obtain ⟨d, q, hq, hgrip⟩ := hc.held h
      by_cases hd : d = c
      · subst hd
        obtain rfl := hn.apart hq hl
        rw [hn.point_unique hq hl] at hgrip
        exact ⟨d, _, new, hkeep hgrip⟩
      · exact ⟨d, q, old hq hd, hgrip⟩
  case tended =>
    intro x hx
    obtain h | ⟨⟨y, hy, hid⟩, hne⟩ := hh.tended hx
    · exact ⟨t, c, _, new, h⟩
    · obtain ⟨u, d, q, hq, ht⟩ := hc.tended y hy
      refine ⟨u, d, q, old hq ?_, hid ▸ ht⟩
      rintro rfl
      rw [hn.point_unique hq hl, hid] at ht
      exact hne ht
  case owned =>
    intro u d q k a hq hfl
    obtain ⟨rfl, rfl, rfl⟩ | ⟨hq, hd⟩ := (hn.live_turn hf).1 hq
    · exact hh.mine hfl
    · refine hh.others (hc.owned hq hfl) fun hgrip => hd ?_
      exact hg.sole hq hl (Point.grip_of_flight hfl) hgrip
  case owner =>
    intro x u hx hu
    obtain ⟨rfl, k, h⟩ | ⟨y, hy, hid, hu, hkeep⟩ := hh.owner hx hu
    · exact ⟨c, _, k, new, h⟩
    · obtain ⟨d, q, k, hq, hfl⟩ := hc.owner hy hu
      by_cases hd : d = c
      · subst hd
        obtain rfl := hn.apart hq hl
        rw [hn.point_unique hq hl, hid] at hfl
        obtain ⟨k', h⟩ := hkeep k hfl
        exact ⟨d, _, k', new, h⟩
      · exact ⟨d, q, k, old hq hd, hid ▸ hfl⟩
  case joined =>
    intro u d q a hq hj
    obtain ⟨rfl, rfl, rfl⟩ | ⟨hq, hd⟩ := (hn.live_turn hf).1 hq
    · obtain ⟨k, rfl, hk⟩ | ⟨hj, hk⟩ := hh.joined hj
      · refine ⟨_, tell List.mem_cons_self, k, rfl, rfl, rfl, fun k' hk' => ?_⟩
        rw [hk] at hk'
        cases hk'
        rfl
      · obtain ⟨e, he, k, ht, hcall, hw, hk₀⟩ := hc.joined hl hj
        exact ⟨e, List.mem_append_left _ he, k, ht, hcall, hw, fun k' h => hk₀ k' (hk k' h)⟩
    · obtain ⟨e, he, h⟩ := hc.joined hq hj
      exact ⟨e, List.mem_append_left _ he, h⟩
  case made =>
    intro x hx
    obtain rfl | ⟨y, hy, hkey, hid⟩ := hh.made hx
    · exact ⟨_, tell List.mem_cons_self, rfl⟩
    · obtain ⟨e, he, hw⟩ := hc.made y hy
      exact ⟨e, List.mem_append_left _ he, hkey ▸ hid ▸ hw⟩
  case agree =>
    -- who joins a creation now joins one that is new, or one that was joined for its key before
    have now : ∀ {e k k' a}, .joined k a ∈ hs → e ∈ es → e.what = .joined k' a →
        k.same k' = true := by
      intro e k k' a h he hw
      obtain ⟨-, ⟨rfl, -⟩ | ⟨x, hx, hid, hk⟩⟩ := hh.joins h
      · exact absurd (hc.bound he hw) (Nat.lt_irrefl _)
      · obtain ⟨e', he', hw'⟩ := hc.made x hx
        rw [hid] at hw'
        exact Key.same_trans (Key.same_symm hk) (hc.agree he' he hw' hw)
    intro e e' k k' a he he' hw hw'
    obtain he | he := List.mem_append.1 he <;> obtain he' | he' := List.mem_append.1 he'
    · exact hc.agree he he' hw hw'
    · obtain ⟨x, hx, rfl⟩ := List.mem_map.1 he'
      cases hw'
      exact Key.same_symm (now hx he hw)
    · obtain ⟨x, hx, rfl⟩ := List.mem_map.1 he
      cases hw
      exact now hx he' hw'
    · obtain ⟨x, hx, rfl⟩ := List.mem_map.1 he
      obtain ⟨x', hx', rfl⟩ := List.mem_map.1 he'
      cases hw
      cases hw'
      obtain ⟨rfl, -⟩ := hh.joins hx
      cases List.mem_singleton.1 hx'
      exact Key.same_refl k
  case bound =>
    intro e k a he hw
    have hfresh : m.shared.fresh ≤ s.fresh := hp.keeps.fresh
    obtain he | he := List.mem_append.1 he
    · exact Nat.lt_of_lt_of_le (hc.bound he hw) hfresh
    · obtain ⟨x, hx, rfl⟩ := List.mem_map.1 he
      cases hw
      obtain ⟨-, ⟨rfl, h⟩ | ⟨y, hy, rfl, -⟩⟩ := hh.joins hx
      · exact h
      · obtain ⟨e', he', hw'⟩ := hc.made y hy
        exact Nat.lt_of_lt_of_le (hc.bound he' hw') hfresh

theorem Custody.calm (hc : m.Custody es) (hp : m'.shared.pending = m.shared.pending)
    (hh : m'.shared.held = m.shared.held) (hfresh : m.shared.fresh ≤ m'.shared.fresh)
    (hes : ∀ e ∈ es', ∀ k a, e.what ≠ .joined k a)
    (hl : ∀ {t c p}, m.Live t c p → p.joined? ≠ none → m'.Live t c p)
    (hl' : ∀ {t c p}, m'.Live t c p → p.joined? ≠ none → m.Live t c p) :
    m'.Custody (es ++ es') := by
  have old : ∀ {e k a}, e ∈ es ++ es' → e.what = .joined k a → e ∈ es := by
    intro e k a he hw
    obtain he | he := List.mem_append.1 he
    · exact he
    · exact absurd hw (hes e he k a)
  constructor
  case held =>
    intro a u h
    obtain ⟨c, p, hlive, hg⟩ := hc.held (hh ▸ h)
    exact ⟨c, p, hl hlive (by simp [Point.joined_of_grip hg]), hg⟩
  case tended =>
    intro x hx
    obtain ⟨t, c, p, hlive, ht⟩ := hc.tended x (hp ▸ hx)
    exact ⟨t, c, p, hl hlive (by simp [Point.joined_of_tends ht]), ht⟩
  case owned =>
    intro t c p k a hlive hf
    have hj := Point.joined_of_stake (Point.stake_of_flight hf)
    have := hc.owned (hl' hlive (by simp [hj])) hf
    simpa only [Shared.OwnedBy, Shared.pending?, hp] using this
  case owner =>
    intro x u hx hu
    obtain ⟨c, p, k, hlive, hf⟩ := hc.owner (hp ▸ hx) hu
    have hj := Point.joined_of_stake (Point.stake_of_flight hf)
    exact ⟨c, p, k, hl hlive (by simp [hj]), hf⟩
  case joined =>
    intro t c p a hlive hj
    obtain ⟨e, he, h⟩ := hc.joined (hl' hlive (by simp [hj])) hj
    exact ⟨e, List.mem_append_left _ he, h⟩
  case made =>
    intro x hx
    obtain ⟨e, he, hw⟩ := hc.made x (hp ▸ hx)
    exact ⟨e, List.mem_append_left _ he, hw⟩
  case agree => exact fun he he' hw hw' => hc.agree (old he hw) (old he' hw') hw hw'
  case bound => exact fun he hw => Nat.lt_of_lt_of_le (hc.bound (old he hw) hw) hfresh

theorem Custody.start (policy : Policy) (clock interval : Int) :
    (Machine.start policy clock interval).Custody [] where
  held h := by simp [Machine.start, Shared.start] at h
  tended x hx := by simp [Machine.start, Shared.start] at hx
  owned h := by simp [Live] at h
  owner hx := by simp [Machine.start, Shared.start] at hx
  joined h := by simp [Live] at h
  made x hx := by simp [Machine.start, Shared.start] at hx
  agree h := by simp at h
  bound h := by simp at h

theorem Change.custody {policy : Policy} (h : Change m es' m') (ha : m.Account policy es)
    (hc : m.Custody es) : m'.Custody (es ++ es') := by
  have hn := ha.numbered
  cases h with
  | advance ns => exact hc.calm rfl rfl (Nat.le_refl _) (by simp) (fun h _ => h) fun h _ => h
  | @call t op _ =>
    refine hc.calm rfl rfl (Nat.le_succ _) (by simp [Shared.tell])
      (fun h _ => live_call.2 (.inr h)) fun h hj => ?_
    obtain ⟨-, -, rfl⟩ | h := live_call.1 h
    · cases op <;> exact absurd rfl hj
    · exact h
  | turn hf hp => exact hc.turn hn ha.guarded hf hp
  | leave hf =>
    refine hc.calm rfl rfl (Nat.le_refl _) (by simp [Shared.tell]) (fun h hj => ?_)
      fun h _ => ((hn.live_leave hf).1 h).1
    refine (hn.live_leave hf).2 ⟨h, ?_⟩
    rintro rfl
    rw [hn.point_unique h (live_of_frames hf)] at hj
    exact hj rfl
  | @fail t c p rest f hf hw =>
    have hp : p.joined? = none := by
      cases p with
      | fetch f => cases f <;> cases hw; rfl
      | _ => rfl
    refine hc.calm rfl rfl (Nat.le_refl _) (by simp) (fun h hj => ?_) fun h hj => ?_
    · refine (hn.live_turn hf).2 (.inr ⟨h, ?_⟩)
      rintro rfl
      rw [hn.point_unique h (live_of_frames hf)] at hj
      exact hj hp
    · obtain ⟨-, -, rfl⟩ | ⟨h, -⟩ := (hn.live_turn hf).1 h
      · exact absurd rfl hj
      · exact h

theorem Trace.custody {policy : Policy} {clock interval : Int}
    (h : Trace (.start policy clock interval) es m) : m.Custody es := by
  induction h with
  | start => exact .start policy clock interval
  | next ht hc ih => exact hc.custody ht.account ih

end Machine

end Lapse
