import Mathlib.Data.Finset.Card
import Lapse.Proofs.Story

namespace Lapse

namespace Point

def due? : Point → Option Record
  | .erase (.discard r) => some r
  | .clear (.discard _ _ r) => some r
  | .sweep (.discard _ _ r) => some r
  | _ => none

theorem due_of_waits {p : Point} (h : p.waits = true) : p.due? = none := by
  cases p with
  | erase e => cases e <;> cases h <;> rfl
  | clear e => cases e <;> cases h; rfl
  | sweep w => cases w <;> cases h <;> rfl
  | _ => rfl

variable {s s' : Shared} {t : Tid} {call : Nat} {p : Point} {hs : List Happening}
  {c : Course Point} {k : Key} {r : Record} {v : Value}

theorem Goes.due (h : p.Goes s t call hs s' c) (hr : c.next.due? = some r) :
    ∃ k, hs = [.deleted k r] := by
  cases h with
  | fetch h => cases h <;> cases hr
  | erase h =>
    cases h with
    | popped => cases hr; exact ⟨_, rfl⟩
    | _ => cases hr
  | clear h =>
    cases h with
    | popped => cases hr; exact ⟨_, rfl⟩
    | _ => cases hr
  | sweep h =>
    cases h with
    | deleted => cases hr; exact ⟨_, rfl⟩
    | _ => cases hr
  | _ => cases hr

theorem Goes.deletion (h : p.Goes s t call hs s' c) (hd : .deleted k r ∈ hs) :
    hs = [.deleted k r] ∧ c.next.due? = some r := by
  cases h with
  | fetch h => cases h <;> simp at hd
  | erase h =>
    cases h with
    | popped => simp at hd; simp [hd, Course.map, due?]
    | _ => simp at hd
  | clear h =>
    cases h with
    | popped => simp at hd; simp [hd, Course.map, due?]
    | _ => simp at hd
  | sweep h =>
    cases h with
    | deleted => simp at hd; simp [hd, Course.map, due?]
    | _ => simp at hd
  | _ => simp at hd

theorem Goes.pays (h : p.Goes s t call hs s' c) (hr : p.due? = some r)
    (hp : s.policy.disposes = true) : hs = [.asked (.dispose r.value)] := by
  cases h with
  | erase h => cases h <;> cases hr <;> simp_all
  | clear h => cases h <;> cases hr <;> simp_all
  | sweep h => cases h <;> cases hr <;> simp_all
  | _ => cases hr

theorem step_of_due (t : Tid) (call : Nat) (hr : p.due? = some r)
    (hp : s.policy.disposes = true) :
    ∃ p', p.step s t call = some ⟨s, [.asked (.dispose r.value)], .go p'⟩ := by
  cases p with
  | erase e =>
    cases e <;> cases hr
    exact ⟨_, by simp [Point.step, Erase.step, hp, Turn.map, Course.map]; rfl⟩
  | clear e =>
    cases e <;> cases hr
    exact ⟨_, by simp [Point.step, Clear.step, hp, Turn.map, Course.map]; rfl⟩
  | sweep w =>
    cases w <;> cases hr
    exact ⟨_, by simp [Point.step, Sweep.step, hp, Turn.map, Course.map]; rfl⟩
  | _ => cases hr

theorem reply_of_due {a : Reply} (hr : p.due? = some r) : p.reply s a = none := by
  cases p with
  | erase e => cases e <;> cases hr; rfl
  | clear e => cases e <;> cases hr; rfl
  | sweep w => cases w <;> cases hr; rfl
  | _ => cases hr

theorem Goes.disposal (h : p.Goes s t call hs s' c) (hd : .asked (.dispose v) ∈ hs) :
    s.policy.disposes = true ∧ hs = [.asked (.dispose v)] ∧
      ∃ r, p.due? = some r ∧ r.value = v := by
  cases h with
  | fetch h => cases h <;> simp at hd
  | erase h =>
    cases h with
    | disposes hp => simp at hd; exact ⟨hp, by simp [hd], _, rfl, hd.symm⟩
    | _ => simp at hd
  | clear h =>
    cases h with
    | disposes hp => simp at hd; exact ⟨hp, by simp [hd], _, rfl, hd.symm⟩
    | _ => simp at hd
  | sweep h =>
    cases h with
    | disposes hp => simp at hd; exact ⟨hp, by simp [hd], _, rfl, hd.symm⟩
    | _ => simp at hd
  | _ => simp at hd

end Point

def lastOf (t : Tid) (es : List Timed) : Option Timed := (es.filter (·.thread == t)).getLast?

theorem lastOf_append_of_ne {t : Tid} {es es' : List Timed} (h : ∀ e ∈ es', e.thread ≠ t) :
    lastOf t (es ++ es') = lastOf t es := by
  have : es'.filter (·.thread == t) = [] := List.filter_eq_nil_iff.2 (by simpa using h)
  simp [lastOf, this]

theorem lastOf_concat (es : List Timed) (e : Timed) : lastOf e.thread (es ++ [e]) = some e := by
  simp [lastOf]

theorem lastOf_split {t : Tid} {es : List Timed} {d : Timed} (h : lastOf t es = some d) :
    ∃ p m, es = p ++ d :: m ∧ d.thread = t ∧ ∀ e ∈ m, e.thread ≠ t := by
  induction es using List.reverseRecOn with
  | nil => simp [lastOf] at h
  | append_singleton es e ih =>
    by_cases he : e.thread = t
    · subst he
      rw [lastOf_concat] at h
      cases h
      exact ⟨es, [], rfl, rfl, by simp⟩
    · rw [lastOf_append_of_ne (by simpa using he)] at h
      obtain ⟨p, m, rfl, hd, hm⟩ := ih h
      refine ⟨p, m ++ [e], by simp, hd, ?_⟩
      intro x hx
      obtain hx | hx := List.mem_append.1 hx
      · exact hm x hx
      · rwa [List.mem_singleton.1 hx]

theorem lastOf_of_split {p m : List Timed} {d : Timed} (hm : ∀ e ∈ m, e.thread ≠ d.thread) :
    lastOf d.thread (p ++ d :: m) = some d := by
  rw [List.append_cons, lastOf_append_of_ne hm, lastOf_concat]

theorem lastOf_tell {t : Tid} {es : List Timed} {s : Shared} {c : Nat} {hs : List Happening}
    {h : Happening} : lastOf t (es ++ s.tell t c (hs ++ [h])) = some ⟨⟨t, c, h⟩, s.clock⟩ := by
  simp [lastOf, Shared.tell]

/-- A thread is between a deletion and the disposal just when that deletion is what it did last,
where values are disposed at all. -/
structure Owing (disposes : Bool) (frames : List Frame) (last : Option Timed) : Prop where
  deleted : ∀ {c p rest r}, frames = ⟨c, p⟩ :: rest → p.due? = some r →
    ∃ e k, last = some e ∧ e.call = c ∧ e.what = .deleted k r
  due : ∀ {e k r}, disposes = true → last = some e → e.what = .deleted k r →
    ∃ p rest, frames = ⟨e.call, p⟩ :: rest ∧ p.due? = some r

theorem Owing.even {disposes : Bool} {frames : List Frame} {e : Timed}
    (hf : ∀ {c p rest}, frames = ⟨c, p⟩ :: rest → p.due? = none)
    (he : e.what.isDeletion = false) : Owing disposes frames (some e) where
  deleted h hr := by simp [hf h] at hr
  due _ h hr := by
    cases h
    rw [hr] at he
    cases he

theorem Owing.turn {s s' : Shared} {t : Tid} {c : Nat} {p : Point} {rest : List Frame}
    {hs : List Happening} {course : Course Point} {es : List Timed}
    (ho : Owing s.policy.disposes (⟨c, p⟩ :: rest) (lastOf t es))
    (hp : p.Goes s t c hs s' course) :
    Owing s'.policy.disposes (⟨c, course.next⟩ :: rest) (lastOf t (es ++ s.tell t c hs)) := by
  rw [hp.keeps.policy]
  cases hs using List.reverseRecOn with
  | nil =>
    constructor
    case deleted =>
      intro c' p' rest' r hf hr
      cases hf
      obtain ⟨k, h⟩ := hp.due hr
      cases h
    case due =>
      intro e k r hd he hr
      obtain ⟨p', rest', hf, hp'⟩ := ho.due hd (by simpa [Shared.tell] using he) hr
      cases hf
      cases hp.pays hp' hd
  | append_singleton xs x =>
    rw [lastOf_tell]
    cases hx : x.isDeletion with
    | true =>
      cases x with
      | deleted k r =>
        have hmem : Happening.deleted k r ∈ xs ++ [.deleted k r] := by simp
        have hd := (hp.deletion hmem).2
        constructor
        case deleted =>
          intro c' p' rest' r' hf hr
          cases hf
          rw [hd] at hr
          cases hr
          exact ⟨_, k, rfl, rfl, rfl⟩
        case due =>
          intro e k' r' _ he hr
          cases he
          cases hr
          exact ⟨_, rest, rfl, hd⟩
      | _ => cases hx
    | false =>
      apply Owing.even
      · intro c' p' rest' hf
        cases hf
        cases hr : course.next.due? with
        | none => rfl
        | some r =>
          obtain ⟨k, h⟩ := hp.due hr
          obtain ⟨rfl, h⟩ := List.append_eq_singleton_iff.1 h |>.resolve_right (by simp)
          cases h
          cases hx
      · exact hx

namespace Machine

variable {m m' : Machine} {es es' : List Timed}

def Owes (es : List Timed) (m : Machine) : Prop :=
  ∀ t, Owing m.shared.policy.disposes (m.frames t) (lastOf t es)

theorem Owes.set (ho : m.Owes es) {s : Shared} {t : Tid} {fs : List Frame}
    (hp : s.policy = m.shared.policy) (he : ∀ e ∈ es', e.thread = t)
    (ht : Owing s.policy.disposes fs (lastOf t (es ++ es'))) :
    Owes (es ++ es') ⟨s, m.calls.set t fs⟩ := by
  intro u
  by_cases hu : u = t
  · subst hu
    rwa [frames_mk_set]
  · rw [frames_mk_set_of_ne _ _ hu, lastOf_append_of_ne]
    · have := ho u
      rwa [← hp] at this
    · intro e h
      rw [he e h]
      exact Ne.symm hu

theorem Change.owes (h : Change m es' m') (hm : m.Shaped) (ho : m.Owes es) :
    m'.Owes (es ++ es') := by
  cases h with
  | advance ns =>
    rw [List.append_nil]
    exact ho
  | @call t op hb =>
    apply ho.set rfl (by simp [Shared.tell])
    rw [show [Happening.called op] = [] ++ [.called op] from rfl, lastOf_tell]
    apply Owing.even
    · intro c p rest hf
      cases hf
      cases op <;> rfl
    · rfl
  | @turn t c p rest hs s course hf hp =>
    have := ho t
    rw [hf] at this
    exact ho.set hp.keeps.policy (by simp [Shared.tell]) (this.turn hp)
  | @leave t c o rest hf =>
    apply ho.set rfl (by simp [Shared.tell])
    rw [show [Happening.returned o] = [] ++ [.returned o] from rfl, lastOf_tell]
    apply Owing.even
    · rintro c' p rest' rfl
      exact Point.due_of_waits (hm.tail hf _ List.mem_cons_self)
    · rfl
  | @fail t c p rest f hf hw =>
    apply ho.set rfl (by simp)
    have hdue : p.due? = none := Point.due_of_waits (by simp [Point.waits, hw])
    have old := ho t
    rw [List.append_nil]
    constructor
    case deleted =>
      intro c' p' rest' r hf' hr
      cases hf'
      cases hr
    case due =>
      intro e k r hd he hr
      obtain ⟨p', rest', hf', hp'⟩ := old.due hd he hr
      cases hf.symm.trans hf'
      simp [hdue] at hp'

theorem Trace.owes {policy : Policy} {clock interval : Int}
    (h : Trace (.start policy clock interval) es m) : m.Owes es := by
  induction h with
  | start =>
    intro t
    constructor
    case deleted => exact fun h => by simp at h
    case due => exact fun _ h => by simp [lastOf] at h
  | next ht hc ih => exact hc.owes ht.account.shaped ih

structure Paid (disposes : Bool) (pre : List Timed) (e : Timed) : Prop where
  pays : ∀ {d k r}, disposes = true → lastOf e.thread pre = some d → d.what = .deleted k r →
    e.call = d.call ∧ e.what = .asked (.dispose r.value)
  owed : ∀ {v}, e.what = .asked (.dispose v) → disposes = true ∧
    ∃ d k r, lastOf e.thread pre = some d ∧ d.call = e.call ∧ d.what = .deleted k r ∧ r.value = v

theorem Paid.other {disposes : Bool} {pre : List Timed} {e : Timed}
    (hp : ∀ {d k r}, disposes = true → lastOf e.thread pre = some d → d.what ≠ .deleted k r)
    (he : ∀ v, e.what ≠ .asked (.dispose v)) : Paid disposes pre e where
  pays hd hl hr := absurd hr (hp hd hl)
  owed h := absurd h (he _)

theorem Paid.turn {s s' : Shared} {t : Tid} {c : Nat} {p : Point} {rest : List Frame}
    {xs ys : List Happening} {x : Happening} {course : Course Point}
    (ho : Owing s.policy.disposes (⟨c, p⟩ :: rest) (lastOf t es))
    (hp : p.Goes s t c (xs ++ x :: ys) s' course) :
    Paid s.policy.disposes (es ++ s.tell t c xs) ⟨⟨t, c, x⟩, s.clock⟩ where
  pays {d k r} hd hl hr := by
    cases xs using List.reverseRecOn with
    | nil =>
      rw [Shared.tell, List.map_nil, List.append_nil] at hl
      obtain ⟨p', rest', hf, hp'⟩ := ho.due hd hl hr
      cases hf
      have := hp.pays hp' hd
      rw [List.nil_append, List.cons.injEq] at this
      exact ⟨rfl, this.1⟩
    | append_singleton xs z =>
      -- a deletion is all that its turn shows
      rw [lastOf_tell] at hl
      cases hl
      cases hr
      have hmem : .deleted k r ∈ xs ++ [.deleted k r] ++ x :: ys := by simp
      have := congrArg List.length (hp.deletion hmem).1
      simp at this
      omega
  owed {v} h := by
    cases h
    have hmem : .asked (.dispose v) ∈ xs ++ .asked (.dispose v) :: ys := by simp
    obtain ⟨hd, hs, r, hr, hv⟩ := hp.disposal hmem
    obtain ⟨rfl, -⟩ | ⟨-, h⟩ := List.append_eq_singleton_iff.1 hs
    · obtain ⟨d, k, hl, hc, hw⟩ := ho.deleted rfl hr
      exact ⟨hd, d, k, r, by simpa [Shared.tell] using hl, hc, hw, hv⟩
    · cases h

theorem Change.paid (h : Change m es' m') (ho : m.Owes es)
    {pre post : List Timed} {e : Timed} (he : es' = pre ++ e :: post) :
    Paid m.shared.policy.disposes (es ++ pre) e := by
  cases h with
  | @call t op hb =>
    cases pre with
    | nil =>
      cases he
      rw [List.append_nil]
      apply Paid.other
      · intro d k r hd hl hr
        obtain ⟨p, rest, hf, hp⟩ := (ho t).due hd hl hr
        simp [Point.due_of_waits (hb.waits hf)] at hp
      · simp
    | cons => simp [Shared.tell] at he
  | @turn t c p rest hs s course hf hp =>
    obtain ⟨xs, ys, rfl, rfl, hys⟩ := List.map_eq_append_iff.1 he
    obtain ⟨y, zs, rfl, rfl, -⟩ := List.map_eq_cons_iff.1 hys
    have := ho t
    rw [hf] at this
    exact .turn this hp
  | @leave t c o rest hf =>
    cases pre with
    | nil =>
      cases he
      rw [List.append_nil]
      apply Paid.other
      · intro d k r hd hl hr
        obtain ⟨p, rest, hf', hp⟩ := (ho t).due hd hl hr
        cases hf.symm.trans hf'
        cases hp
      · simp
    | cons => simp [Shared.tell] at he
  | _ => simp at he

theorem Trace.paid {policy : Policy} {clock interval : Int}
    (h : Trace (.start policy clock interval) es m) {pre post : List Timed} {e : Timed}
    (he : es = pre ++ e :: post) : Paid policy.disposes pre e := by
  obtain ⟨es₀, m₀, m₁, xs, ys, ht, hc, rfl⟩ := h.locate he
  rw [← ht.account.policy]
  exact hc.paid ht.owes rfl

theorem step?_of_frames {t : Tid} {c : Nat} {p : Point} {rest : List Frame}
    (hf : m.frames t = ⟨c, p⟩ :: rest) (hp : ∀ o, p ≠ .done o) :
    m.step? t = (p.step m.shared t c).map (m.take t c rest) := by
  cases p with
  | done o => exact absurd rfl (hp o)
  | _ => simp only [step?, hf]

structure Obliged (m : Machine) (t : Tid) (c : Nat) (v : Value) : Prop where
  step : ∃ m', m.step? t = some (m', [⟨t, c, .asked (.dispose v)⟩])
  call : ∀ op, m.call? t op = none
  reply : ∀ a, m.reply? t a = none

theorem Owes.obliged (ho : m.Owes es) (hd : m.shared.policy.disposes = true) {t : Tid} {d : Timed}
    {k : Key} {r : Record} (hl : lastOf t es = some d) (hr : d.what = .deleted k r) :
    m.Obliged t d.call r.value := by
  obtain ⟨p, rest, hf, hp⟩ := (ho t).due hd hl hr
  obtain ⟨p', hstep⟩ := Point.step_of_due t d.call hp hd
  have hask : p.ask? = none ∧ ∀ o, p ≠ .done o := by
    constructor
    · cases hp' : p.ask? with
      | none => rfl
      | some a => simp [Point.due_of_waits (p := p) (by simp [Point.waits, hp'])] at hp
    · rintro o rfl
      cases hp
  refine ⟨⟨m.setFrames t (⟨d.call, p'⟩ :: rest), ?_⟩, ?_, ?_⟩
  · rw [step?_of_frames hf hask.2, hstep]
    rfl
  · intro op
    simp [call?, hf, mayCall, hask.1]
  · intro a
    have : p.reply m.shared a = none := Point.reply_of_due hp
    simp [reply?, hf, this]

end Machine

def Happening.isDisposal : Happening → Bool
  | asked (.dispose _) => true
  | _ => false

def Owed (es : List Timed) (t : Tid) : Prop :=
  ∃ d, lastOf t es = some d ∧ d.what.isDeletion = true

theorem owed_concat (es : List Timed) (e : Timed) (t : Tid) :
    Owed (es ++ [e]) t ↔ if t = e.thread then e.what.isDeletion = true else Owed es t := by
  split
  case isTrue h =>
    subst h
    simp [Owed, lastOf_concat]
  case isFalse h => rw [Owed, lastOf_append_of_ne (by simpa using Ne.symm h), Owed]

theorem Machine.Paid.owed_iff {es : List Timed} {e : Timed} (h : Machine.Paid true es e) :
    Owed es e.thread ↔ e.what.isDisposal = true := by
  constructor
  · rintro ⟨d, hl, hd⟩
    cases hw : d.what with
    | deleted k r =>
      rw [(h.pays rfl hl hw).2]
      rfl
    | _ => simp [hw, Happening.isDeletion] at hd
  · intro hd
    cases hw : e.what with
    | asked a =>
      cases a with
      | dispose v =>
        obtain ⟨-, d, k, r, hl, -, hr, -⟩ := h.owed hw
        exact ⟨d, hl, by rw [hr]; rfl⟩
      | _ => simp [hw, Happening.isDisposal] at hd
    | _ => simp [hw, Happening.isDisposal] at hd

theorem count_deletions {es : List Timed}
    (h : ∀ {pre e post}, es = pre ++ e :: post → Machine.Paid true pre e) :
    ∃ owing : Finset Tid, (∀ t, t ∈ owing ↔ Owed es t) ∧
      es.countP (·.what.isDeletion) = es.countP (·.what.isDisposal) + owing.card := by
  induction es using List.reverseRecOn with
  | nil => exact ⟨∅, by simp [Owed, lastOf], rfl⟩
  | append_singleton es e ih =>
    obtain ⟨owing, ho, hc⟩ := ih fun {pre e' post} hes => @h pre e' (post ++ [e]) (by simp [hes])
    have hthen := (h rfl).owed_iff
    rw [← ho] at hthen
    rw [List.countP_append, List.countP_append, List.countP_singleton, List.countP_singleton]
    cases hd : e.what.isDeletion with
    | true =>
      have hno : e.what.isDisposal = false := by
        cases hw : e.what with
        | deleted => rfl
        | _ => simp [hw, Happening.isDeletion] at hd
      refine ⟨insert e.thread owing, ?_, ?_⟩
      · intro t
        rw [Finset.mem_insert, owed_concat, ho]
        by_cases ht : t = e.thread <;> simp [ht, hd]
      · rw [Finset.card_insert_of_notMem (by simp [hthen, hno]), hno]
        simp only [if_true, Bool.false_eq_true, if_false]
        omega
    | false =>
      refine ⟨owing.erase e.thread, ?_, ?_⟩
      · intro t
        rw [Finset.mem_erase, owed_concat, ho]
        by_cases ht : t = e.thread <;> simp [ht, hd]
      · cases hp : e.what.isDisposal with
        | true =>
          have hmem := hthen.2 hp
          have := Finset.card_pos.2 ⟨_, hmem⟩
          rw [Finset.card_erase_of_mem hmem]
          simp only [if_true, Bool.false_eq_true, if_false]
          omega
        | false =>
          rw [Finset.erase_eq_of_notMem (by simp [hthen, hp])]
          simpa using hc

end Lapse
