import Lapse.Proofs.Episode
import Lapse.Proofs.Unscathed

namespace Lapse

namespace Happening

def retried? : Happening → Option Nat
  | retried _ a => some a
  | _ => none

def withdrawn? (k : Key) : Happening → Option Nat
  | withdrawn k' a => if k'.same k then some a else none
  | _ => none

end Happening

namespace Point

def isHead : Point → Bool
  | .fetch (.register ..) => true
  | _ => false

def looks : Point → Bool
  | .fetch (.coerce ..) => true
  | .fetch (.lookup ..) => true
  | .fetch (.register ..) => true
  | .fetch (.again ..) => true
  | _ => false

def queued? : Point → Option (Key × Nat)
  | .fetch (.acquire k _ a) => some (k, a)
  | .fetch (.claim k _ a) => some (k, a)
  | _ => none

end Point

def Label.enters (l : Label) (c : Nat) (m : Machine) : Bool :=
  l.thread?.any fun t => (m.frames t).head?.any fun f => f.call == c && f.point.isHead

def rounds (c : Nat) (m : Machine) : List Move → Nat
  | [] => 0
  | mv :: h =>
    match m.next? mv.label with
    | none => 0
    | some (m', _) => (mv.label.enters c m').toNat + rounds c m' h

def abandoned (c : Nat) (es : List Event) : List Nat :=
  (es.filter (·.call == c)).filterMap (·.what.retried?)

def during (c : Nat) (es : List Event) : List Event :=
  (es.dropWhile (·.call != c)).takeWhile fun e => !(e.call == c && e.what.returned?.isSome)

def withdrawals (t : Tid) (k : Key) (es : List Event) : List Nat :=
  (es.filter (·.thread != t)).filterMap (·.what.withdrawn? k)

def Shared.Past (s : Shared) (a : Nat) : Prop := a < s.fresh ∧ ∀ x ∈ s.pending, x.id ≠ a

/-- After the first moves, among the second ones, another thread than `t` finishes a creation of the
key that it owns, and withdraws it. -/
inductive Outrun (start : Machine) (g w : List Move) (t : Tid) (k : Key) (a : Nat) : Prop
  | intro {v v' : List Move} {withdraws : Move} {m : Machine} {u : Tid} {d : Nat} {k' : Key}
    {o : Outcome} {rest : List Frame} : w = v ++ withdraws :: v' → Run start (g ++ v) m →
    m.frames u = ⟨d, .fetch (.withdraw k' a o)⟩ :: rest → m.shared.OwnedBy k' a u →
    withdraws.events = [⟨u, d, .withdrawn k' a⟩] → u ≠ t → k'.same k = true →
    Outrun start g w t k a

/-- In the last of its rounds the call joined a creation that it had not joined before; since then
it has shown nothing, and the creation's owner, another thread, has withdrawn it, so that it is
over. -/
inductive Overtaken (start : Machine) (h : List Move) (t : Tid) (c : Nat) (k : Key) (a : Nat) :
    Prop
  | intro {g w : List Move} {joins : Move} : h = g ++ joins :: w →
    joins.events = [⟨t, c, .joined k a⟩] →
    (∀ e ∈ eventsOf g, e.call = c → ∀ k', e.what ≠ .joined k' a) →
    (∀ e ∈ eventsOf w, e.call ≠ c) → rounds c start g = rounds c start h →
    Outrun start (g ++ [joins]) w t k a → (∀ m, Run start h m → m.shared.Past a) →
    Overtaken start h t c k a

inductive Retried (start : Machine) (h : List Move) (t : Tid) (c : Nat) (k : Key) (a : Nat) : Prop
  | intro {g w : List Move} {retries : Move} : h = g ++ retries :: w →
    retries.events = [⟨t, c, .retried k a⟩] → (∀ e ∈ eventsOf w, e.call ≠ c) →
    rounds c start g = rounds c start h → Overtaken start g t c k a → Retried start h t c k a

structure Bounded (start : Machine) (h : List Move) : Prop where
  again : ∀ {g mv g' m c}, h = g ++ mv :: g' → Run start (g ++ [mv]) m →
    mv.label.enters c m = true → 1 ≤ rounds c start g → ∃ t k a, Retried start g t c k a
  limit : ∀ {t c key ttl k}, ⟨t, c, .called (.fetch key ttl)⟩ ∈ eventsOf h →
    key.toKey c = .ok k →
    rounds c start h ≤ 1 + (withdrawals t k (during c (eventsOf h))).toFinset.card
  supplied : ∀ c, (eventsOf h).countP (fun e => e.call == c && e.what.isSupply) ≤ 1
  alone : ∀ {u}, (∀ mv ∈ h, ∀ v, mv.label.thread? = some v → v = u) →
    ∀ {g g' m t c k ttl}, h = g ++ g' → Run start g m →
      m.Live t c (.fetch (.register k ttl)) → rounds c start h = 1

section Counting

variable {m m' m'' : Machine} {g h : List Move} {mv : Move} {c : Nat}

@[simp] theorem eventsOf_append (g h : List Move) : eventsOf (g ++ h) = eventsOf g ++ eventsOf h :=
  List.flatMap_append

@[simp] theorem eventsOf_cons (mv : Move) (h : List Move) :
    eventsOf (mv :: h) = mv.events ++ eventsOf h := rfl

@[simp] theorem eventsOf_nil : eventsOf [] = [] := rfl

theorem Run.rounds_append (hr : Run m g m') (c : Nat) (h : List Move) :
    rounds c m (g ++ h) = rounds c m g + rounds c m' h := by
  induction g generalizing m with
  | nil =>
    obtain rfl := Run.nil_iff.1 hr
    simp [rounds]
  | cons mv g ih =>
    obtain ⟨m₁, hl, hr⟩ := Run.cons_iff.1 hr
    simp only [List.cons_append, rounds, hl, ih hr, Nat.add_assoc]

theorem Run.rounds_next (hr : Run m g m') (hl : m'.next? mv.label = some (m'', mv.events)) :
    rounds c m (g ++ [mv]) = rounds c m g + (mv.label.enters c m'').toNat := by
  rw [hr.rounds_append]
  simp [rounds, hl]

theorem abandoned_append (c : Nat) (es es' : List Event) :
    abandoned c (es ++ es') = abandoned c es ++ abandoned c es' := by
  simp [abandoned]

theorem abandoned_eq_nil {es : List Event} (h : ∀ e ∈ es, e.call ≠ c) : abandoned c es = [] := by
  have : es.filter (·.call == c) = [] := List.filter_eq_nil_iff.2 (by simpa using h)
  rw [abandoned, this]
  rfl

@[simp] theorem abandoned_map (t : Tid) (c : Nat) (hs : List Happening) :
    abandoned c (hs.map (Event.mk t c)) = hs.filterMap Happening.retried? := by
  rw [abandoned, List.filter_eq_self.2 (by simp), List.filterMap_map]
  rfl

end Counting

namespace Machine

inductive Came (m : Machine) (evs : List Event) (m' : Machine) (t : Tid) (c : Nat) :
    Point → Bool → Prop
  | stayed {p : Point} : m.Live t c p → (∀ e ∈ evs, e.call ≠ c) → Came m evs m' t c p false
  | began {op : Op} : c = m.shared.fresh → evs = [⟨t, c, .called op⟩] →
    Came m evs m' t c op.start false
  | turned {p : Point} {rest : List Frame} {hs : List Happening} {course : Course Point} :
    m.frames t = ⟨c, p⟩ :: rest → p.Goes m.shared t c hs m'.shared course →
    evs = hs.map (Event.mk t c) → Came m evs m' t c course.next course.next.isHead
  | gated {p p' : Point} {rest : List Frame} : m.frames t = ⟨c, p⟩ :: rest →
    p.Goes m.shared t c [] m.shared (.gated p') → (∀ e ∈ evs, e.call ≠ c) →
    Came m evs m' t c p' false
  | failed {p : Point} (f : Fault) : m.Live t c p → p.awaitsSweep = true →
    (∀ e ∈ evs, e.call ≠ c) → Came m evs m' t c (.done (.error f)) false

variable {m m' : Machine} {l : Label} {evs : List Event} {t : Tid} {c : Nat} {p : Point}

theorem enters_set {u : Tid} (hu : l.thread? = some u) (s : Shared) (fs : List Frame) :
    l.enters c ⟨s, m.calls.set u fs⟩ =
      fs.head?.any fun f => f.call == c && f.point.isHead := by
  simp [Label.enters, hu]

theorem live_of_enters (h : l.enters c m = true) : ∃ t p, m.Live t c p ∧ p.isHead = true := by
  obtain ⟨t, -, h⟩ := Option.any_eq_true _ _ |>.1 h
  obtain ⟨f, hf, h⟩ := Option.any_eq_true _ _ |>.1 h
  obtain ⟨hc, hhead⟩ := Bool.and_eq_true_iff.1 h
  obtain rfl : f.call = c := by simpa using hc
  exact ⟨t, f.point, List.mem_of_mem_head? hf, hhead⟩

theorem isHead_of_waits (h : p.waits = true) : p.isHead = false := by
  cases p with
  | fetch f =>
    cases f with
    | register => cases h
    | _ => rfl
  | _ => rfl

theorem isHead_start (op : Op) : op.start.isHead = false := by cases op <;> rfl

theorem Makes.came (h : m.Makes l evs m') (hn : m.Numbered) (hs : m.Shaped)
    (hl : m'.Live t c p) : m.Came evs m' t c p (l.enters c m') := by
  have other : ∀ {u d h}, d ≠ c → ∀ e ∈ [(⟨u, d, h⟩ : Event)], e.call ≠ c := by
    intro u d h hne e he
    rw [List.mem_singleton.1 he]
    exact hne
  cases h with
  | advance ns => exact .stayed hl (by simp)
  | @call u op hc =>
    rw [push, enters_set rfl]
    simp only [List.head?_cons, Option.any_some, isHead_start, Bool.and_false]
    obtain ⟨rfl, rfl, rfl⟩ | hl := live_call.1 hl
    · exact .began rfl rfl
    · exact .stayed hl (other (Nat.ne_of_gt (hn.bound hl)))
  | @turn _ u d q rest hs s course hd hf hp hng =>
    rw [enters_set hd.thread]
    obtain ⟨rfl, rfl, rfl⟩ | ⟨hl, hne⟩ := (hn.live_turn hf).1 hl
    · simpa using Came.turned hf hp rfl
    · have henters : (d == c) = false := by simpa using Ne.symm hne
      simp only [List.head?_cons, Option.any_some, henters, Bool.false_and]
      exact .stayed hl (by simpa using fun _ _ => Ne.symm hne)
  | @gate _ u d q q' rest hd hf hp =>
    have hbound : d < m.shared.fresh := hn.bound (live_of_frames hf)
    rw [push, enters_set hd.thread]
    simp only [List.head?_cons, Option.any_some, isHead_start, Bool.and_false]
    obtain ⟨rfl, hmem⟩ | ⟨-, hl⟩ := live_set.1 hl
    · obtain heq | hmem := List.mem_cons.1 hmem
      · cases heq
        exact .began rfl rfl
      · obtain heq | hmem := List.mem_cons.1 hmem
        · cases heq
          exact .gated hf hp (other (Nat.ne_of_gt hbound))
        · have hlive := ((hn.mem_rest hf).1 hmem).1
          exact .stayed hlive (other (Nat.ne_of_gt (hn.bound hlive)))
    · exact .stayed hl (other (Nat.ne_of_gt (hn.bound hl)))
  | @leave u d o rest hf _ =>
    have hhead : (Label.step u).enters c (m.setFrames u rest) = false := by
      rw [setFrames, enters_set rfl]
      cases rest with
      | nil => rfl
      | cons f fs =>
        have hw : f.point.waits = true := hs.tail hf f List.mem_cons_self
        simp [isHead_of_waits hw]
    rw [hhead]
    obtain ⟨hl, hne⟩ := (hn.live_leave hf).1 hl
    exact .stayed hl (other (Ne.symm hne))
  | @fail u d f below others hf hc =>
    rw [setFrames, enters_set rfl]
    simp only [List.head?_cons, Option.any_some, Point.isHead, Bool.and_false]
    obtain ⟨rfl, hmem⟩ | ⟨hne, hl⟩ := live_set.1 hl
    · obtain heq | hmem := List.mem_cons.1 hmem
      · cases heq
        have hlive := (hn.mem_rest hf).1 List.mem_cons_self
        have hw : below.point.waits = true := hs.tail hf below List.mem_cons_self
        refine .failed f hlive.1 ?_ (other (Ne.symm hlive.2))
        simpa [Point.waits, show below.point.ask?.isSome = false from hc] using hw
      · have hlive := (hn.mem_rest hf).1 (List.mem_cons_of_mem _ hmem)
        exact .stayed hlive.1 (other (Ne.symm hlive.2))
    · refine .stayed hl (other ?_)
      rintro rfl
      exact hne (hn.apart hl (live_of_frames hf))

end Machine

namespace Point

variable {s s' : Shared} {t : Tid} {c : Nat} {p p' : Point} {hs : List Happening}
  {course : Course Point} {k : Key} {a : Nat}

theorem Goes.past (h : p.Goes s t c hs s' course) (ha : s.Past a) : s'.Past a := by
  refine ⟨Nat.lt_of_lt_of_le ha.1 h.keeps.fresh, ?_⟩
  cases h with
  | fetch h =>
    cases h with
    | created _ _ =>
      intro x hx
      obtain hx | rfl := Shared.mem_create.1 hx
      · exact ha.2 x hx
      · exact Nat.ne_of_gt ha.1
    | claimed _ =>
      intro x hx
      obtain ⟨y, hy, -, hid⟩ := Shared.mem_own hx
      exact hid ▸ ha.2 y hy
    | withdrawn _ => exact fun x hx => ha.2 x (Shared.mem_withdraw.1 hx).1
    | _ => exact ha.2
  | erase h => cases h <;> exact ha.2
  | clear h => cases h <;> exact ha.2
  | sweep h => cases h <;> exact ha.2
  | _ => exact ha.2

theorem Goes.unpends (h : p.Goes s t c hs s' course) (ha : s.isPending k a = true) :
    s'.isPending k a = true ∨
      ∃ k' o, p = .fetch (.withdraw k' a o) ∧ hs = [.withdrawn k' a] := by
  cases h with
  | fetch h =>
    cases h with
    | created _ _ => exact .inl (Shared.isPending_create ha)
    | claimed _ => exact .inl (by rwa [Shared.isPending_own])
    | @withdrawn k' b o _ =>
      by_cases hb : b = a
      · subst hb
        exact .inr ⟨k', o, rfl, rfl⟩
      · exact .inl (Shared.isPending_withdraw hb ha)
    | _ => exact .inl ha
  | erase h => cases h <;> exact .inl ha
  | clear h => cases h <;> exact .inl ha
  | sweep h => cases h <;> exact .inl ha
  | _ => exact .inl ha

theorem Goes.looks (h : p.Goes s t c hs s' course) (hp : course.next.looks = true) :
    p.looks = true ∧ hs = [] ∨ ∃ k ttl a, course.next = .fetch (.again k ttl a) := by
  cases h with
  | fetch h =>
    cases h with
    | coerced _ | missed _ _ | retried => exact .inl ⟨rfl, rfl⟩
    | stale ha => exact .inr ⟨_, _, _, rfl⟩
    | _ => cases hp
  | erase h => cases h <;> cases hp
  | clear h => cases h <;> cases hp
  | sweep h => cases h <;> cases hp
  | _ => cases hp

theorem Goes.again {ttl : Int} (h : p.Goes s t c hs s' course)
    (hp : course.next = .fetch (.again k ttl a)) :
    p = .fetch (.claim k ttl a) ∧ hs = [.retried k a] ∧ s.isPending k a = false := by
  cases h with
  | fetch h =>
    cases h with
    | stale ha =>
      cases hp
      exact ⟨rfl, rfl, ha⟩
    | _ => cases hp
  | erase h => cases h <;> cases hp
  | clear h => cases h <;> cases hp
  | sweep h => cases h <;> cases hp
  | _ => cases hp

theorem Goes.queued (h : p.Goes s t c hs s' course) (hp : course.next.queued? = some (k, a)) :
    (p.isHead = true ∧ hs = [.joined k a] ∧ s'.isPending k a = true ∧ ∀ b, s.Past b → b ≠ a) ∨
      p.queued? = some (k, a) ∧ hs = [] := by
  cases h with
  | fetch h =>
    cases h with
    | created hr hnone =>
      cases hp
      refine .inl ⟨rfl, rfl, ?_, fun b hb => Nat.ne_of_lt hb.1⟩
      refine Shared.isPending_iff.2 ⟨⟨k, s.fresh, none⟩, ?_, rfl⟩
      simp only [Shared.pending?] at hnone
      simp [Shared.pending?, Shared.create, List.find?_append, hnone, Key.same_refl]
    | joined hr hx _ =>
      cases hp
      refine .inl ⟨rfl, rfl, Shared.isPending_iff.2 ⟨_, hx, rfl⟩, ?_⟩
      rintro b hb rfl
      exact hb.2 _ (Shared.mem_of_pending? hx).1 rfl
    | acquired _ => exact .inr ⟨hp, rfl⟩
    | _ => cases hp
  | erase h => cases h <;> cases hp
  | clear h => cases h <;> cases hp
  | sweep h => cases h <;> cases hp
  | _ => cases hp

theorem looks_of_isHead (h : p.isHead = true) : p.looks = true := by
  cases p with
  | fetch f => cases f <;> cases h; rfl
  | _ => cases h

end Point

namespace Machine

variable {policy : Policy} {clock interval : Int} {start m m' : Machine} {g h w : List Move}
  {mv : Move} {l : Label} {evs : List Event} {t : Tid} {c : Nat} {p : Point} {k : Key} {a : Nat}

theorem Makes.past (h : m.Makes l evs m') (ha : m.shared.Past a) : m'.shared.Past a := by
  cases h with
  | turn _ _ hp _ => exact hp.past ha
  | call _ => exact ⟨Nat.lt_succ_of_lt ha.1, ha.2⟩
  | gate _ _ _ => exact ⟨Nat.lt_succ_of_lt ha.1, ha.2⟩
  | _ => exact ha

theorem Makes.unpends (h : m.Makes l evs m') (ha : m.shared.isPending k a = true) :
    m'.shared.isPending k a = true ∨ ∃ u d k' o rest,
      m.frames u = ⟨d, .fetch (.withdraw k' a o)⟩ :: rest ∧ evs = [⟨u, d, .withdrawn k' a⟩] := by
  cases h with
  | turn _ hf hp _ =>
    obtain ha | ⟨k', o, rfl, rfl⟩ := hp.unpends ha
    · exact .inl ha
    · exact .inr ⟨_, _, k', o, _, hf, rfl⟩
  | _ => exact .inl ha

/-- Since the call joined the creation, and it has joined none before that is not over, it has shown
nothing; and the creation is pending still, or its owner, another thread, has withdrawn it. -/
inductive Queued (start : Machine) (h : List Move) (m : Machine) (t : Tid) (c : Nat) (k : Key)
    (a : Nat) : Prop
  | intro {g w : List Move} {joins : Move} : h = g ++ joins :: w →
    joins.events = [⟨t, c, .joined k a⟩] →
    (∀ e ∈ eventsOf g, e.call = c → ∀ k' b, e.what = .joined k' b →
      b ≠ a ∧ m.shared.Past b) →
    (∀ e ∈ eventsOf w, e.call ≠ c) → rounds c start g = rounds c start h →
    (m.shared.isPending k a = true ∨ Outrun start (g ++ [joins]) w t k a) →
    Queued start h m t c k a

end Machine

theorem Outrun.concat {start : Machine} {g w : List Move} {t : Tid} {k : Key} {a : Nat}
    (h : Outrun start g w t k a) (mv : Move) : Outrun start g (w ++ [mv]) t k a := by
  obtain ⟨rfl, hr, hf, ho, hev, hu, hk⟩ := h
  exact ⟨by rw [List.append_assoc, List.cons_append], hr, hf, ho, hev, hu, hk⟩

theorem Retried.next {start m m' : Machine} {h : List Move} {mv : Move} {t : Tid} {c : Nat}
    {k : Key} {a : Nat} (hq : Retried start h t c k a) (hr : Run start h m)
    (hl : m.next? mv.label = some (m', mv.events)) (hno : ∀ e ∈ mv.events, e.call ≠ c)
    (henters : mv.label.enters c m' = false) : Retried start (h ++ [mv]) t c k a := by
  obtain ⟨hh, hev, hafter, hround, hover⟩ := hq
  rename_i g w _
  refine .intro (g := g) (w := w ++ [mv]) ?_ hev ?_ ?_ hover
  · rw [hh, List.append_assoc, List.cons_append]
  · intro e he
    rw [eventsOf_append, List.mem_append] at he
    obtain he | he := he
    · exact hafter e he
    · exact hno e (by simpa using he)
  · rw [hr.rounds_next hl, henters, hround]
    rfl

namespace Machine

variable {policy : Policy} {clock interval : Int} {start m m' : Machine} {g h w : List Move}
  {mv : Move} {l : Label} {evs : List Event} {t : Tid} {c : Nat} {p : Point} {k : Key} {a : Nat}

theorem stake_of_queued (h : p.queued? = some (k, a)) : p.stake? = some (k, a) := by
  cases p with
  | fetch f => cases f <;> cases h <;> rfl
  | _ => cases h

theorem waits_of_queued (h : p.queued? = some (k, a)) : p.waits = false := by
  cases p with
  | fetch f => cases f <;> cases h <;> rfl
  | _ => cases h

theorem Queued.next (hq : Queued (.start policy clock interval) h m t c k a)
    (hr : Run (.start policy clock interval) h m) (hl : m.next? mv.label = some (m', mv.events))
    (hp : m.Live t c p) (hpk : p.queued? = some (k, a)) (hno : ∀ e ∈ mv.events, e.call ≠ c)
    (henters : mv.label.enters c m' = false) :
    Queued (.start policy clock interval) (h ++ [mv]) m' t c k a := by
  obtain ⟨rfl, hev, hbefore, hafter, hround, hends⟩ := hq
  rename_i g w joins
  have hmakes := makes_of_next? hl
  have ht := hr.trace
  refine .intro (g := g) (w := w ++ [mv]) (by simp) hev ?_ ?_ ?_ ?_
  · intro e he hc k' b hw
    obtain ⟨hne, hpast⟩ := hbefore e he hc k' b hw
    exact ⟨hne, hmakes.past hpast⟩
  · intro e he
    rw [eventsOf_append, List.mem_append] at he
    obtain he | he := he
    · exact hafter e he
    · exact hno e (by simpa using he)
  · rw [hr.rounds_next hl, henters, hround]
    rfl
  · obtain hpend | hout := hends
    · obtain hpend | ⟨u, d, k', o, rest, hf, hwev⟩ := hmakes.unpends hpend
      · exact .inl hpend
      · have hlive := live_of_frames hf
        refine .inr ⟨rfl, by simpa using hr, hf, ht.custody.owned hlive rfl, hwev, ?_, ?_⟩
        · rintro rfl
          obtain ⟨_, htop⟩ := ht.account.shaped.top hp (waits_of_queued hpk)
          rw [hf] at htop
          cases htop
          cases hpk
        · exact ht.custody.same hlive hp rfl (stake_of_queued hpk)
    · exact .inr (hout.concat mv)

structure Circling (start : Machine) (h : List Move) (m : Machine) : Prop where
  free : ∀ {t c p}, m.Live t c p → p.looks = true → ∀ e ∈ eventsOf h, e.call = c →
    ∀ k b, e.what = .joined k b → m.shared.Past b
  queued : ∀ {t c p k a}, m.Live t c p → p.queued? = some (k, a) → Queued start h m t c k a
  again : ∀ {t c k ttl a}, m.Live t c (.fetch (.again k ttl a)) → Retried start h t c k a

theorem Queued.overtaken (hq : Queued start h m t c k a) (hr : Run start h m)
    (ha : m.shared.isPending k a = false) (hpast : m.shared.Past a) :
    Overtaken start h t c k a := by
  obtain ⟨hh, hev, hbefore, hafter, hround, hends⟩ := hq
  refine ⟨hh, hev, ?_, hafter, hround, ?_, fun m' hr' => hr.unique hr' ▸ hpast⟩
  · intro e he hc k' hw
    exact (hbefore e he hc k' a hw).1 rfl
  · obtain hpend | hout := hends
    · simp [ha] at hpend
    · exact hout

theorem isHead_of_queued (h : p.queued? = some (k, a)) : p.isHead = false := by
  cases p with
  | fetch f => cases f <;> cases h <;> rfl
  | _ => cases h

theorem Account.call_lt {es : List Timed} (ha : m.Account policy es) {e : Event}
    (he : e ∈ es.map Timed.toEvent) : e.call < m.shared.fresh := by
  obtain ⟨x, hx, rfl⟩ := List.mem_map.1 he
  exact ha.calls x hx

theorem Custody.past {es : List Timed} {ttl : Int} (hc : m.Custody es) (hk : m.shared.OnePerKey)
    (hl : m.Live t c (.fetch (.claim k ttl a))) (ha : m.shared.isPending k a = false) :
    m.shared.Past a := by
  obtain ⟨e, he, k', -, -, hw, -⟩ := hc.joined hl rfl
  refine ⟨hc.bound he hw, fun x hx hid => ?_⟩
  have hpend := hc.isPending hk hl rfl hx hid
  simp [ha] at hpend

theorem Circling.next (hc : Circling (.start policy clock interval) h m)
    (hr : Run (.start policy clock interval) h m)
    (hl : m.next? mv.label = some (m', mv.events)) :
    Circling (.start policy clock interval) (h ++ [mv]) m' := by
  have ht := hr.trace
  have ha := ht.account
  have hmakes := makes_of_next? hl
  constructor
  case free =>
    intro t c p hlive hp e he hec k b hw
    rw [eventsOf_append, List.mem_append] at he
    have hcame := hmakes.came ha.numbered ha.shaped hlive
    generalize mv.label.enters c m' = entered at hcame
    -- a fetch that showed nothing new, and looked before
    have before : ∀ {q}, m.Live t c q → q.looks = true → (∀ x ∈ mv.events, x.call ≠ c) →
        m'.shared.Past b := by
      intro q hq hlooks hno
      obtain he | he := he
      · exact hmakes.past (hc.free hq hlooks e he hec k b hw)
      · exact absurd hec (hno e (by simpa using he))
    cases hcame with
    | stayed hlive hno => exact before hlive hp hno
    | began hfresh hev =>
      obtain he | he := he
      · have hlt := ha.call_lt (by rwa [toEvent_chronicle])
        omega
      · obtain rfl : e = _ := by simpa [hev] using he
        cases hw
    | turned hf hgoes hev =>
      obtain ⟨hlooks, rfl⟩ | ⟨k', ttl, a, hagain⟩ := hgoes.looks hp
      · exact before (live_of_frames hf) hlooks (by simp [hev])
      · obtain ⟨rfl, rfl, hpend⟩ := hgoes.again hagain
        have hlive := live_of_frames hf
        refine hmakes.past ?_
        obtain ⟨rfl, hjev, hbefore, hafter, -, -⟩ := hc.queued hlive rfl
        obtain he | he := he
        · rw [eventsOf_append, eventsOf_cons, List.mem_append, List.mem_append] at he
          obtain he | he | he := he
          · exact (hbefore e he hec k b hw).2
          · obtain rfl : e = _ := by simpa [hjev] using he
            cases hw
            exact ht.custody.past ha.guarded.keys hlive hpend
          · exact absurd hec (hafter e he)
        · obtain rfl : e = _ := by simpa [hev] using he
          cases hw
    | gated hf hgoes hno =>
      obtain ⟨hlooks, -⟩ | ⟨k', ttl, a, hagain⟩ := hgoes.looks hp
      · exact before (live_of_frames hf) hlooks hno
      · obtain ⟨-, hnil, -⟩ := hgoes.again hagain
        cases hnil
    | failed => cases hp
  case queued =>
    intro t c p k a hlive hp
    have hcame := hmakes.came ha.numbered ha.shaped hlive
    generalize hent : mv.label.enters c m' = entered at hcame
    cases hcame with
    | stayed hlive hno => exact (hc.queued hlive hp).next hr hl hlive hp hno hent
    | @began op =>
      cases op <;> cases hp
    | turned hf hgoes hev =>
      have hlive := live_of_frames hf
      rw [isHead_of_queued hp] at hent
      obtain ⟨hhead, rfl, hpend, hne⟩ | ⟨hp, rfl⟩ := hgoes.queued hp
      · refine .intro (g := h) (w := []) rfl (by simp [hev]) ?_ (by simp) ?_ (.inl hpend)
        · intro e he hec k' b hw
          have hpast := hc.free hlive (Point.looks_of_isHead hhead) e he hec k' b hw
          exact ⟨hne b hpast, hmakes.past hpast⟩
        · rw [hr.rounds_next hl, hent]
          rfl
      · exact (hc.queued hlive hp).next hr hl hlive hp (by simp [hev]) hent
    | gated hf hgoes hno =>
      have hw := waits_of_queued hp
      simp [Point.waits, hgoes.awaitsSweep] at hw
    | failed => cases hp
  case again =>
    intro t c k ttl a hlive
    generalize hp : Point.fetch (.again k ttl a) = p at hlive
    have hcame := hmakes.came ha.numbered ha.shaped hlive
    generalize hent : mv.label.enters c m' = entered at hcame
    cases hcame with
    | stayed hlive hno =>
      subst hp
      exact (hc.again hlive).next hr hl hno hent
    | @began op =>
      cases op <;> cases hp
    | turned hf hgoes hev =>
      rw [← hp] at hent
      obtain ⟨rfl, rfl, hpend⟩ := hgoes.again hp.symm
      have hlive := live_of_frames hf
      have hpast := ht.custody.past ha.guarded.keys hlive hpend
      refine .intro (g := h) (w := []) rfl (by simp [hev]) (by simp) ?_
        ((hc.queued hlive rfl).overtaken hr hpend hpast)
      rw [hr.rounds_next hl, hent]
      rfl
    | gated hf hgoes hno =>
      have hawaits := hgoes.awaitsSweep
      rw [← hp] at hawaits
      cases hawaits
    | failed => cases hp

theorem circling_of_run (hr : Run (.start policy clock interval) h m) :
    Circling (.start policy clock interval) h m := by
  induction hr with
  | start =>
    constructor
    case free => exact fun hl => by simp [Live] at hl
    case queued => exact fun hl => by simp [Live] at hl
    case again => exact fun hl => by simp [Live] at hl
  | next hr hl ih => exact ih.next hr hl

end Machine

def Point.Rounds (n r : Nat) : Point → Prop
  | .fetch (.coerce ..) => r = 0
  | .fetch (.lookup ..) => r = 0
  | .fetch (.again ..) => 1 ≤ r ∧ r ≤ n
  | .fetch _ => 1 ≤ r ∧ r ≤ n + 1
  | .done _ => r ≤ n + 1
  | _ => r = 0

theorem Point.rounds_start (op : Op) : op.start.Rounds 0 0 := by cases op <;> rfl

theorem Point.Goes.rounds {s s' : Shared} {t : Tid} {c : Nat} {p : Point} {hs : List Happening}
    {course : Course Point} (h : p.Goes s t c hs s' course) {n r : Nat} (hp : p.Rounds n r) :
    course.next.Rounds (n + (hs.filterMap Happening.retried?).length)
      (r + course.next.isHead.toNat) := by
  cases h with
  | fetch h =>
    cases h <;> simp_all [Rounds, isHead, Course.map, Happening.retried?] <;> omega
  | erase h => cases h <;> simp_all [Rounds, isHead, Course.map, Happening.retried?]
  | clear h => cases h <;> simp_all [Rounds, isHead, Course.map, Happening.retried?]
  | sweep h => cases h <;> simp_all [Rounds, isHead, Course.map, Happening.retried?]
  | _ => simp_all [Rounds, isHead, Happening.retried?]

theorem Point.Goes.head {s s' : Shared} {t : Tid} {c : Nat} {p : Point} {hs : List Happening}
    {course : Course Point} (h : p.Goes s t c hs s' course) (hp : course.next.isHead = true) :
    (∃ key n, p = .fetch (.lookup key n)) ∨ ∃ k n a, p = .fetch (.again k n a) := by
  cases h with
  | fetch h =>
    cases h with
    | missed _ _ => exact .inl ⟨_, _, rfl⟩
    | retried => exact .inr ⟨_, _, _, rfl⟩
    | _ => cases hp
  | erase h => cases h <;> cases hp
  | clear h => cases h <;> cases hp
  | sweep h => cases h <;> cases hp
  | _ => cases hp

theorem Point.Goes.claim_of_retried {s s' : Shared} {t : Tid} {c : Nat} {p : Point}
    {hs : List Happening} {course : Course Point} {k : Key} {a : Nat}
    (h : p.Goes s t c hs s' course) (hr : .retried k a ∈ hs) : hs = [.retried k a] ∧
      (∃ ttl, p = .fetch (.claim k ttl a)) ∧ s.isPending k a = false := by
  cases h with
  | fetch h =>
    cases h with
    | stale ha =>
      cases List.mem_singleton.1 hr
      exact ⟨rfl, ⟨_, rfl⟩, ha⟩
    | _ => simp at hr
  | erase h => cases h <;> simp at hr
  | clear h => cases h <;> simp at hr
  | sweep h => cases h <;> simp at hr
  | _ => simp at hr

namespace Machine

variable {policy : Policy} {clock interval : Int} {start m m' : Machine} {g g' h : List Move}
  {mv : Move} {l : Label} {evs : List Event} {t : Tid} {c : Nat} {p : Point} {k : Key} {a : Nat}

structure Counted (start : Machine) (h : List Move) (m : Machine) (c : Nat) : Prop where
  live : ∀ {t p}, m.Live t c p → p.Rounds (abandoned c (eventsOf h)).length (rounds c start h)
  bound : rounds c start h ≤ (abandoned c (eventsOf h)).length + 1
  unborn : m.shared.fresh ≤ c → rounds c start h = 0

theorem Makes.retried (h : m.Makes l evs m') (he : ⟨t, c, .retried k a⟩ ∈ evs) :
    (∃ ttl, m.Live t c (.fetch (.claim k ttl a))) ∧ m.shared.isPending k a = false ∧
      evs = [⟨t, c, .retried k a⟩] := by
  cases h with
  | turn _ hf hp _ =>
    obtain ⟨x, hx, heq⟩ := List.mem_map.1 he
    cases heq
    obtain ⟨rfl, ⟨ttl, rfl⟩, ha⟩ := hp.claim_of_retried hx
    exact ⟨⟨ttl, live_of_frames hf⟩, ha, rfl⟩
  | _ => simp at he

theorem Makes.fresh (h : m.Makes l evs m') : m.shared.fresh ≤ m'.shared.fresh := by
  cases h with
  | turn _ _ hp _ => exact hp.keeps.fresh
  | call _ => exact Nat.le_succ _
  | gate _ _ _ => exact Nat.le_succ _
  | _ => exact Nat.le_refl _

theorem Makes.thread (h : m.Makes l evs m') : ∀ e ∈ evs, l.thread? = some e.thread := by
  intro e he
  cases h with
  | advance ns => cases he
  | turn hd _ _ _ =>
    obtain ⟨x, -, rfl⟩ := List.mem_map.1 he
    exact hd.thread
  | gate hd _ _ =>
    rw [List.mem_singleton.1 he]
    exact hd.thread
  | _ =>
    rw [List.mem_singleton.1 he]
    rfl

theorem Counted.next (hc : Counted (.start policy clock interval) h m c)
    (hr : Run (.start policy clock interval) h m)
    (hl : m.next? mv.label = some (m', mv.events)) :
    Counted (.start policy clock interval) (h ++ [mv]) m' c := by
  have ha := hr.trace.account
  have hmakes := makes_of_next? hl
  have hevents : abandoned c (eventsOf (h ++ [mv])) =
      abandoned c (eventsOf h) ++ abandoned c mv.events := by
    rw [eventsOf_append, abandoned_append]
    simp
  have live : ∀ {t p}, m'.Live t c p →
      p.Rounds (abandoned c (eventsOf (h ++ [mv]))).length
        (rounds c (.start policy clock interval) (h ++ [mv])) := by
    intro t p hlive
    have hcame := hmakes.came ha.numbered ha.shaped hlive
    rw [hr.rounds_next hl, hevents, List.length_append]
    generalize mv.label.enters c m' = entered at hcame
    cases hcame with
    | stayed hlive hno =>
      rw [abandoned_eq_nil hno]
      exact hc.live hlive
    | began hfresh hev =>
      have hold : abandoned c (eventsOf h) = [] := by
        refine abandoned_eq_nil fun e he => Nat.ne_of_lt ?_
        rw [hfresh]
        exact ha.call_lt (by rwa [toEvent_chronicle])
      have hnew : abandoned c mv.events = [] := by simp [hev, abandoned, Happening.retried?]
      rw [hold, hnew, hc.unborn (Nat.le_of_eq hfresh.symm)]
      exact Point.rounds_start _
    | turned hf hgoes hev =>
      rw [hev, abandoned_map]
      exact hgoes.rounds (hc.live (live_of_frames hf))
    | gated hf hgoes hno =>
      have hrounds := hgoes.rounds (hc.live (live_of_frames hf))
      rw [Course.next_gated, isHead_of_waits (by simp [Point.waits, hgoes.awaitsSweep])] at hrounds
      rw [abandoned_eq_nil hno]
      exact hrounds
    | @failed q f hq hw hno =>
      have hrounds := hc.live hq
      rw [abandoned_eq_nil hno]
      cases q with
      | fetch f =>
        cases f with
        | lookup => exact Nat.le_trans (Nat.le_of_eq hrounds) (Nat.zero_le _)
        | _ => cases hw
      | erase e => exact Nat.le_trans (Nat.le_of_eq hrounds) (Nat.zero_le _)
      | _ => cases hw
  constructor
  case live => exact live
  case bound =>
    cases hent : mv.label.enters c m' with
    | true =>
      obtain ⟨t, p, hlive, hhead⟩ := live_of_enters hent
      have hrounds := live hlive
      cases p with
      | fetch f =>
        cases f with
        | register => exact hrounds.2
        | _ => cases hhead
      | _ => cases hhead
    | false =>
      rw [hr.rounds_next hl, hent, hevents, List.length_append]
      have := hc.bound
      simp only [Bool.toNat_false]
      omega
  case unborn =>
    intro hle
    cases hent : mv.label.enters c m' with
    | true =>
      obtain ⟨t, p, hlive, -⟩ := live_of_enters hent
      have hlt := (hr.next hl).trace.account.numbered.bound hlive
      omega
    | false =>
      rw [hr.rounds_next hl, hent]
      have hgrows : m.shared.fresh ≤ m'.shared.fresh := hmakes.fresh
      exact hc.unborn (Nat.le_trans hgrows hle)

end Machine

theorem mem_abandoned {c a : Nat} {es : List Event} :
    a ∈ abandoned c es ↔ ∃ e ∈ es, e.call = c ∧ ∃ k, e.what = .retried k a := by
  have retried : ∀ {x : Happening}, x.retried? = some a ↔ ∃ k, x = .retried k a := by
    intro x
    cases x <;> simp [Happening.retried?]
  simp [abandoned, retried, and_assoc]

theorem mem_withdrawals {t u : Tid} {d a : Nat} {k k' : Key} {es : List Event}
    (he : ⟨u, d, .withdrawn k' a⟩ ∈ es) (hu : u ≠ t) (hk : k'.same k = true) :
    a ∈ withdrawals t k es := by
  refine List.mem_filterMap.2 ⟨_, List.mem_filter.2 ⟨he, by simpa using hu⟩, ?_⟩
  simp [Happening.withdrawn?, hk]

theorem mem_during {c : Nat} {xs ys zs : List Event} {j e : Event} (hj : j.call = c)
    (hno : ∀ x ∈ xs ++ j :: (ys ++ [e]), x.call = c → x.what.returned? = none) :
    e ∈ during c (xs ++ j :: (ys ++ e :: zs)) := by
  obtain ⟨xs', hsub, hdrop⟩ : ∃ xs', (∀ x ∈ xs', x ∈ xs) ∧
      (xs ++ j :: (ys ++ e :: zs)).dropWhile (·.call != c) = xs' ++ j :: (ys ++ e :: zs) := by
    refine ⟨xs.dropWhile (·.call != c), fun x hx => List.dropWhile_subset _ hx, ?_⟩
    rw [List.dropWhile_append]
    split
    · rename_i hempty
      rw [List.isEmpty_iff.1 hempty, List.dropWhile_cons_of_neg (by simp [hj])]
      rfl
    · rfl
  have hall : ∀ x ∈ xs' ++ j :: (ys ++ [e]),
      (!(x.call == c && x.what.returned?.isSome)) = true := by
    intro x hx
    have hmem : x ∈ xs ++ j :: (ys ++ [e]) := by
      obtain hx | hx := List.mem_append.1 hx
      · exact List.mem_append_left _ (hsub x hx)
      · exact List.mem_append_right _ hx
    by_cases hc : x.call = c
    · simp [hno x hmem hc]
    · simp [hc]
  have hsplit : xs' ++ j :: (ys ++ e :: zs) = (xs' ++ j :: (ys ++ [e])) ++ zs := by simp
  rw [during, hdrop, hsplit, List.takeWhile_append_of_pos hall]
  simp

theorem Happening.isSupply_iff {x : Happening} :
    x.isSupply = true ↔ ∃ k, x = .asked (.supply k) := by
  cases x with
  | asked a => cases a <;> simp [isSupply]
  | _ => simp [isSupply]

theorem countP_le_one {α : Type} {P : α → Bool} {xs : List α}
    (h : ∀ pre x post, xs = pre ++ x :: post → P x = true → ∀ y ∈ pre, P y = false) :
    xs.countP P ≤ 1 := by
  induction xs using List.reverseRecOn with
  | nil => simp
  | append_singleton xs x ih =>
    rw [List.countP_append, List.countP_singleton]
    cases hx : P x with
    | true =>
      have hzero : xs.countP P = 0 := List.countP_eq_zero.2 (by simpa using h xs x [] rfl hx)
      simp [hzero]
    | false =>
      simpa using ih fun pre y post hs => h pre y (post ++ [x]) (by simp [hs])

namespace Run

variable {policy : Policy} {clock interval : Int} {m m₀ : Machine} {g g' h : List Move}
  {mv : Move} {t : Tid} {c : Nat} {k : Key} {a : Nat}

theorem counted (hr : Run (.start policy clock interval) h m) (c : Nat) :
    Machine.Counted (.start policy clock interval) h m c := by
  induction hr with
  | start => exact ⟨fun hl => by simp [Machine.Live] at hl, Nat.zero_le _, fun _ => rfl⟩
  | next hr hl ih => exact ih.next hr hl

theorem mem_chronicle {e : Event} (he : e ∈ eventsOf h) (now : Int) :
    ∃ x ∈ chronicle now h, x.toEvent = e := by
  rw [← toEvent_chronicle now] at he
  exact List.mem_map.1 he

theorem retried (hr : Run (.start policy clock interval) h m) (hh : h = g ++ mv :: g')
    (he : ⟨t, c, .retried k a⟩ ∈ mv.events) :
    ∃ m₀ ttl, Run (.start policy clock interval) g m₀ ∧ m₀.Live t c (.fetch (.claim k ttl a)) ∧
      Overtaken (.start policy clock interval) g t c k a ∧
      mv.events = [⟨t, c, .retried k a⟩] := by
  subst hh
  obtain ⟨m₀, hg, hrest⟩ := hr.split
  obtain ⟨m₁, hl, -⟩ := Run.cons_iff.1 hrest
  obtain ⟨⟨ttl, hlive⟩, ha, hev⟩ := (Machine.makes_of_next? hl).retried he
  have hpast := hg.trace.custody.past hg.trace.account.guarded.keys hlive ha
  have hqueued := (Machine.circling_of_run hg).queued hlive rfl
  exact ⟨m₀, ttl, hg, hlive, hqueued.overtaken hg ha hpast, hev⟩

theorem joined_of_retried (hr : Run (.start policy clock interval) h m)
    (he : ⟨t, c, .retried k a⟩ ∈ eventsOf h) : ⟨t, c, .joined k a⟩ ∈ eventsOf h := by
  obtain ⟨mv, hmv, hmem⟩ := List.mem_flatMap.1 he
  obtain ⟨g, g', rfl⟩ := List.append_of_mem hmv
  obtain ⟨-, -, -, -, hover, -⟩ := hr.retried rfl hmem
  obtain ⟨rfl, hev, -⟩ := hover
  simp [hev]

theorem fresh_of_overtaken (hr : Run (.start policy clock interval) h m)
    (ho : Overtaken (.start policy clock interval) h t c k a) : a ∉ abandoned c (eventsOf h) := by
  intro hmem
  obtain ⟨⟨u, d, x⟩, he, rfl, k', rfl⟩ := mem_abandoned.1 hmem
  obtain ⟨rfl, hev, hbefore, hafter, -, -, -⟩ := ho
  rw [eventsOf_append, eventsOf_cons, List.mem_append, List.mem_append, hev] at he
  obtain he | he | he := he
  · obtain ⟨m₀, hg, -⟩ := hr.split
    exact hbefore _ (hg.joined_of_retried he) rfl k' rfl
  · simp at he
  · exact hafter _ he rfl

theorem nodup_abandoned (hr : Run (.start policy clock interval) h m) :
    (abandoned c (eventsOf h)).Nodup := by
  induction h using List.reverseRecOn generalizing m with
  | nil => exact List.nodup_nil
  | append_singleton g mv ih =>
    obtain ⟨m₀, hg, -⟩ := Run.concat_iff.1 hr
    have hevents : eventsOf (g ++ [mv]) = eventsOf g ++ mv.events := by simp
    rw [hevents, abandoned_append]
    cases hnew : abandoned c mv.events with
    | nil => simpa using ih hg
    | cons a as =>
      have hmem : a ∈ abandoned c mv.events := by simp [hnew]
      obtain ⟨⟨t, d, x⟩, he, rfl, k, rfl⟩ := mem_abandoned.1 hmem
      obtain ⟨-, -, -, -, hover, hev⟩ := hr.retried rfl he
      obtain rfl : as = [] := by
        rw [hev] at hnew
        simpa [abandoned, Happening.retried?] using hnew.symm
      have hfresh := hg.fresh_of_overtaken hover
      rw [List.nodup_append]
      refine ⟨ih hg, List.nodup_singleton a, ?_⟩
      rintro b hb x hx rfl
      rw [List.mem_singleton.1 hx] at hb
      exact hfresh hb

theorem key_of_retried (hr : Run (.start policy clock interval) h m) (hh : h = g ++ mv :: g')
    (he : ⟨t, c, .retried k a⟩ ∈ mv.events) {u : Tid} {key ttl : Value}
    (hb : ⟨u, c, .called (.fetch key ttl)⟩ ∈ eventsOf h) : u = t ∧ key.toKey c = .ok k := by
  obtain ⟨m₀, n, hg, hlive, -, -⟩ := hr.retried hh he
  obtain ⟨x, hx, hxe⟩ := mem_chronicle hb clock
  obtain ⟨op, hstory⟩ := hg.trace.story hlive
  obtain ⟨y, hy, hyc, hyw⟩ := hstory.mem_called
  have hmem : y ∈ chronicle clock h := by
    rw [hh, chronicle_append_list]
    exact List.mem_append_left _ hy
  have hxc : x.call = c := by rw [hxe]
  have hxw : x.what = .called (.fetch key ttl) := by rw [hxe]
  obtain rfl := hr.trace.called_unique hx hmem hxw hyw (hxc.trans hyc.symm)
  obtain ⟨rfl, hthread⟩ := hstory.began hy hyc hxw
  refine ⟨?_, hstory.fetches.1.key⟩
  rw [← hthread, hxe]

theorem abandoned_subset (hr : Run (.start policy clock interval) h m) {key ttl : Value}
    (hb : ⟨t, c, .called (.fetch key ttl)⟩ ∈ eventsOf h) (hk : key.toKey c = .ok k) :
    ∀ a ∈ abandoned c (eventsOf h), a ∈ withdrawals t k (during c (eventsOf h)) := by
  intro a ha
  obtain ⟨⟨u, d, x⟩, he, hd, k', rfl⟩ := mem_abandoned.1 ha
  obtain rfl : d = c := hd
  obtain ⟨mv, hmv, hmem⟩ := List.mem_flatMap.1 he
  obtain ⟨g, g', rfl⟩ := List.append_of_mem hmv
  obtain ⟨rfl, hk'⟩ := hr.key_of_retried rfl hmem hb
  obtain rfl : k = k' := by
    rw [hk] at hk'
    cases hk'
    rfl
  obtain ⟨m₀, n, hg, hlive, hover, -⟩ := hr.retried rfl hmem
  obtain ⟨op, hstory⟩ := hg.trace.story hlive
  have hno : ∀ x ∈ eventsOf g, x.call = d → x.what.returned? = none := by
    intro x hx hxc
    obtain ⟨y, hy, rfl⟩ := mem_chronicle hx clock
    exact hstory.not_returned y (mem_trail.2 ⟨hy, hxc⟩)
  obtain ⟨rfl, hjoins, -, -, -, hout, -⟩ := hover
  rename_i q w joins
  obtain ⟨rfl, -, -, -, hwithdraws, hu, hsame⟩ := hout
  rename_i v v' withdraws m₁ u e k' o rest
  have hevents : eventsOf (q ++ joins :: (v ++ withdraws :: v') ++ mv :: g') =
      eventsOf q ++ ⟨t, d, .joined k a⟩ :: (eventsOf v ++ ⟨u, e, .withdrawn k' a⟩ ::
        (eventsOf v' ++ eventsOf (mv :: g'))) := by
    simp [hjoins, hwithdraws]
  rw [hevents]
  refine mem_withdrawals (mem_during rfl fun x hx hxc => hno x ?_ hxc) hu hsame
  simp only [eventsOf_append, eventsOf_cons, hjoins, hwithdraws, List.mem_append, List.mem_cons,
    List.not_mem_nil, or_false] at hx ⊢
  tauto

theorem countP_supply (hr : Run (.start policy clock interval) h m) (c : Nat) :
    (eventsOf h).countP (fun e => e.call == c && e.what.isSupply) ≤ 1 := by
  rw [← toEvent_chronicle clock, List.countP_map]
  refine countP_le_one fun pre x post hs hx y hy => ?_
  obtain ⟨hxc, hxs⟩ := Bool.and_eq_true_iff.1 hx
  obtain rfl : x.call = c := by simpa using hxc
  obtain ⟨k, hw⟩ := Happening.isSupply_iff.1 hxs
  obtain ⟨-, -, -, -, -, hsilent, -⟩ := hr.trace.supply_origin hs hw
  refine Bool.eq_false_iff.2 fun hPy => ?_
  obtain ⟨hyc, hys⟩ := Bool.and_eq_true_iff.1 hPy
  obtain ⟨k', hw'⟩ := Happening.isSupply_iff.1 hys
  have hasks := (hsilent y (mem_trail.2 ⟨hy, by simpa using hyc⟩)).1
  rw [show y.what = _ from hw'] at hasks
  cases hasks

theorem abandoned_of_alone {u : Tid} (hr : Run (.start policy clock interval) h m)
    (hu : ∀ mv ∈ h, ∀ v, mv.label.thread? = some v → v = u) : abandoned c (eventsOf h) = [] := by
  have thread : ∀ e ∈ eventsOf h, e.thread = u := by
    intro e he
    obtain ⟨mv, hmv, hmem⟩ := List.mem_flatMap.1 he
    obtain ⟨g, g', rfl⟩ := List.append_of_mem hmv
    obtain ⟨m₀, -, hrest⟩ := hr.split
    obtain ⟨m₁, hl, -⟩ := Run.cons_iff.1 hrest
    exact hu mv hmv _ ((Machine.makes_of_next? hl).thread e hmem)
  refine List.eq_nil_iff_forall_not_mem.2 fun a ha => ?_
  obtain ⟨⟨t, d, x⟩, he, -, k, rfl⟩ := mem_abandoned.1 ha
  obtain ⟨mv, hmv, hmem⟩ := List.mem_flatMap.1 he
  obtain ⟨g, g', rfl⟩ := List.append_of_mem hmv
  obtain ⟨-, -, -, -, hover, -⟩ := hr.retried rfl hmem
  obtain ⟨rfl, -, -, -, -, hout, -⟩ := hover
  obtain ⟨rfl, -, -, -, hwithdraws, hne, -⟩ := hout
  rename_i u' d' k' o rest
  have hother : u' = u := thread ⟨u', d', .withdrawn k' a⟩ (by simp [hwithdraws])
  exact hne (hother.trans (thread _ he).symm)

theorem again (hr : Run (.start policy clock interval) (g ++ [mv]) m)
    (he : mv.label.enters c m = true) (hround : 1 ≤ rounds c (.start policy clock interval) g) :
    ∃ t k a, Retried (.start policy clock interval) g t c k a := by
  obtain ⟨m₀, hg, hl⟩ := Run.concat_iff.1 hr
  obtain ⟨t, p, hlive, hhead⟩ := Machine.live_of_enters he
  have ha := hg.trace.account
  have hcame := (Machine.makes_of_next? hl).came ha.numbered ha.shaped hlive
  rw [he] at hcame
  generalize hent : true = entered at hcame
  cases hcame with
  | turned hf hgoes hev =>
    have hlive := Machine.live_of_frames hf
    obtain ⟨key, n, rfl⟩ | ⟨k, n, a, rfl⟩ := hgoes.head hhead
    · have hzero : rounds c (.start policy clock interval) g = 0 := (hg.counted c).live hlive
      omega
    · exact ⟨t, k, a, (Machine.circling_of_run hg).again hlive⟩
  | _ => cases hent

theorem bounded {h : List Move} {m : Machine} (hr : Run (.start policy clock interval) h m) :
    Bounded (.start policy clock interval) h := by
  have bound := fun c => (hr.counted c).bound
  constructor
  case again => exact fun _ hr' he hround => hr'.again he hround
  case limit =>
    intro t c key ttl k hb hk
    have hcard : (abandoned c (eventsOf h)).length ≤
        (withdrawals t k (during c (eventsOf h))).toFinset.card := by
      rw [← List.toFinset_card_of_nodup hr.nodup_abandoned]
      refine Finset.card_le_card fun a ha => ?_
      exact List.mem_toFinset.2 (hr.abandoned_subset hb hk a (List.mem_toFinset.1 ha))
    have := bound c
    omega
  case supplied => exact hr.countP_supply
  case alone =>
    rintro u hu g g' m₀ t c k ttl rfl hg hlive
    have hone : 1 ≤ rounds c (.start policy clock interval) g := ((hg.counted c).live hlive).1
    have hle := bound c
    rw [hr.abandoned_of_alone hu, List.length_nil] at hle
    rw [hg.rounds_append] at hle ⊢
    omega

end Run

/-- Three threads want a key. The first one's supplier fails and then the second one's, while the
others wait; so the third goes round three times. -/
def outrun : List Label :=
  List.flatten [
    [.call 0 (.fetch (.int 1) (.int 5))], .replicate 8 (.step 0),
    [.call 1 (.fetch (.bool true) (.int 5))], .replicate 6 (.step 1),
    [.call 2 (.fetch (.int 1) (.int 5))], .replicate 6 (.step 2),
    [.reply 0 (.error (.raised .boom ""))], .replicate 4 (.step 0),
    .replicate 6 (.step 1), .replicate 4 (.step 2),
    [.reply 1 (.error (.raised .boom ""))], .replicate 4 (.step 1),
    .replicate 6 (.step 2), [.reply 2 (.ok (.text "v"))], .replicate 5 (.step 2)]

theorem bounded_outrun :
    ∃ h m, Run (.start ⟨false, false⟩ 0 10) h m ∧ Bounded (.start ⟨false, false⟩ 0 10) h ∧
      rounds 5 (.start ⟨false, false⟩ 0 10) h = 3 ∧
      (withdrawals 2 (.int 1) (during 5 (eventsOf h))).toFinset.card = 2 :=
  ⟨_, _, .perform _ outrun, (Run.perform _ outrun).bounded, by decide +kernel,
    by decide +kernel⟩

end Lapse
