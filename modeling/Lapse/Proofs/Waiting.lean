import Lapse.Proofs.Custody
import Lapse.Proofs.Fetching

namespace Lapse

def Seeks (es : List Timed) (c : Nat) (k : Key) : Prop :=
  ∃ b ∈ es, b.call = c ∧ ∃ key ttl, b.what = .called (.fetch key ttl) ∧ key.toKey c = .ok k

namespace Point

variable {s s' : Shared} {t : Tid} {call : Nat} {p : Point} {hs : List Happening}
  {c : Course Point}

theorem acquire_of_step (h : p.step s t call = none) (ha : p.ask? = none)
    (hd : ∀ o, p ≠ .done o) :
    ∃ k ttl a, p = .fetch (.acquire k ttl a) ∧ s.isHeld a = true := by
  cases p with
  | fetch f =>
    replace h : f.step s t call = none := Option.map_eq_none_iff.1 h
    revert h ha
    fun_cases Fetch.step s t call f <;> intro ha h
    case case10 k ttl a hheld => exact ⟨k, ttl, a, rfl, hheld⟩
    all_goals first | exact (Option.some_ne_none _ h).elim | exact (Option.some_ne_none _ ha).elim
  | erase e =>
    replace h : e.step s call = none := Option.map_eq_none_iff.1 h
    revert h ha
    fun_cases Erase.step s call e <;> intro ha h
    all_goals first | exact (Option.some_ne_none _ h).elim | exact (Option.some_ne_none _ ha).elim
  | clear e =>
    replace h : e.step s = none := Option.map_eq_none_iff.1 h
    revert h ha
    fun_cases Clear.step s e <;> intro ha h
    all_goals first | exact (Option.some_ne_none _ h).elim | exact (Option.some_ne_none _ ha).elim
  | sweep w =>
    replace h : w.step s t = none := Option.map_eq_none_iff.1 h
    revert h ha
    fun_cases Sweep.step s t w <;> intro ha h
    all_goals first | exact (Option.some_ne_none _ h).elim | exact (Option.some_ne_none _ ha).elim
  | setInterval ns =>
    simp only [step] at h
    split at h <;> cases h
  | done o => exact absurd rfl (hd o)
  | _ => cases h

theorem Goes.acquires (h : p.Goes s t call hs s' c) {k : Key} {ttl : Int} {a : Nat}
    (hc : c.next = .fetch (.acquire k ttl a)) :
    ∀ {x}, s.pending? k = some x → x.owner ≠ some t := by
  intro x hx
  cases h with
  | fetch h =>
    cases h with
    | created _ hnone =>
      cases hc
      simp [hnone] at hx
    | joined _ hy ho =>
      cases hc
      cases hy.symm.trans hx
      exact ho
    | _ => cases hc
  | erase h => cases h <;> cases hc
  | clear h => cases h <;> cases hc
  | sweep h => cases h <;> cases hc
  | _ => cases hc

theorem Goes.seeks (h : p.Goes s t call hs s' c) {k : Key} {a : Nat} (hk : .joined k a ∈ hs) :
    ∃ ttl, p = .fetch (.register k ttl) := by
  cases h with
  | fetch h =>
    cases h with
    | created | joined =>
      cases List.mem_singleton.1 hk
      exact ⟨_, rfl⟩
    | _ => simp at hk
  | erase h => cases h <;> simp at hk
  | clear h => cases h <;> simp at hk
  | sweep h => cases h <;> simp at hk
  | _ => simp at hk

theorem Goes.gate (h : p.Goes s t call hs s' c) {u : Tid} (hu : s'.gate = some u) :
    (u = t ∧ ∃ now, c.next = .sweep (.recheck now)) ∨
      s.gate = some u ∧ ∀ now, p ≠ .sweep (.recheck now) := by
  cases h with
  | fetch h => right; cases h <;> exact ⟨hu, by simp⟩
  | erase h => right; cases h <;> exact ⟨hu, by simp⟩
  | clear h => right; cases h <;> exact ⟨hu, by simp⟩
  | sweep h =>
    cases h with
    | entered =>
      cases hu
      exact .inl ⟨rfl, _, rfl⟩
    | forestalled | passed => cases hu
    | _ => exact .inr ⟨hu, by simp⟩
  | _ => exact .inr ⟨hu, by simp⟩

end Point

namespace Machine

def Blocked (m : Machine) (t : Tid) : Prop := mayCall (m.frames t) = false ∧ m.step? t = none

def Inside (m : Machine) (t : Tid) : Prop :=
  ∃ f rest, m.frames t = f :: rest ∧ f.point.ask?.isSome = true

inductive Awaits (m : Machine) (t u : Tid) : Prop
  | intro {c : Nat} {k : Key} {ttl : Int} {a : Nat} {rest : List Frame} :
    m.frames t = ⟨c, .fetch (.acquire k ttl a)⟩ :: rest → (a, u) ∈ m.shared.held → Awaits m t u

/-- The other thread holds the creation that the thread waits for, in a call that has not ended and
is for the same key. -/
inductive Kept (es : List Timed) (m : Machine) (t u : Tid) : Prop
  | intro {c d : Nat} {k k' : Key} {ttl : Int} {a : Nat} {rest : List Frame} {q : Point} :
    m.frames t = ⟨c, .fetch (.acquire k ttl a)⟩ :: rest → m.Live u d q → q.grip? = some a →
    Seeks es c k → Seeks es d k' → k.same k' = true → Kept es m t u

variable {m m' : Machine} {es es' : List Timed} {t u : Tid} {c : Nat} {p : Point}
  {rest : List Frame} {policy : Policy}

theorem isHeld_iff {s : Shared} {a : Nat} : s.isHeld a = true ↔ ∃ u, (a, u) ∈ s.held := by
  simp [Shared.isHeld]

theorem blocked_iff : m.Blocked t ↔ ∃ u, m.Awaits t u := by
  constructor
  · rintro ⟨hc, hs⟩
    cases hf : m.frames t with
    | nil => simp [hf, mayCall] at hc
    | cons f rest =>
      obtain ⟨c, p⟩ := f
      have ha : p.ask? = none := by simpa [hf, mayCall] using hc
      have hd : ∀ o, p ≠ .done o := by
        rintro o rfl
        simp [step?, hf] at hs
      have hstep : p.step m.shared t c = none := by
        cases p with
        | done o => exact absurd rfl (hd o)
        | _ => simpa only [step?, hf, Option.map_eq_none_iff] using hs
      obtain ⟨k, ttl, a, rfl, hheld⟩ := Point.acquire_of_step hstep ha hd
      obtain ⟨u, hu⟩ := isHeld_iff.1 hheld
      exact ⟨u, .intro hf hu⟩
  · rintro ⟨u, hf, hu⟩
    constructor
    · simp [hf, mayCall, Point.ask?, Fetch.ask?]
    · simp [step?, hf, Point.step, Fetch.step, isHeld_iff.2 ⟨u, hu⟩]

theorem stands (h : m.frames t ≠ []) : m.Blocked t ∨ m.Inside t ∨ (m.step? t).isSome = true := by
  cases hc : mayCall (m.frames t) with
  | true =>
    cases hf : m.frames t with
    | nil => exact absurd hf h
    | cons f rest => exact .inr (.inl ⟨f, rest, hf, by simpa [hf, mayCall] using hc⟩)
  | false =>
    cases hs : m.step? t with
    | none => exact .inl ⟨hc, hs⟩
    | some x => exact .inr (.inr rfl)

def Apart (m : Machine) : Prop := ∀ {t : Tid} {c : Nat} {k : Key} {ttl : Int} {a : Nat}
  {rest : List Frame}, m.frames t = ⟨c, .fetch (.acquire k ttl a)⟩ :: rest →
    ∀ f ∈ rest, ∀ k', f.point.making? = some k' → k'.same k = false

theorem Apart.set (ha : m.Apart) {s : Shared} {fs : List Frame}
    (hfs : ∀ {c k ttl a rest}, fs = ⟨c, .fetch (.acquire k ttl a)⟩ :: rest →
      ∀ f ∈ rest, ∀ k', f.point.making? = some k' → k'.same k = false) :
    Apart ⟨s, m.calls.set t fs⟩ := by
  intro u c k ttl a rest hf
  by_cases hu : u = t
  · subst hu
    rw [frames_mk_set] at hf
    exact hfs hf
  · rw [frames_mk_set_of_ne _ _ hu] at hf
    exact ha hf

theorem Change.apart (h : Change m es' m') (hc : m.Custody es) (hm : m.Shaped) (ha : m.Apart) :
    m'.Apart := by
  cases h with
  | advance ns => exact ha
  | @call t op _ =>
    apply ha.set
    intro c k ttl a rest hf
    cases op <;> cases hf
  | @turn t c p rest hs s course hf hp =>
    apply ha.set
    intro c' k ttl a rest' hf' f hmem k' hk'
    obtain ⟨⟨-, hnext⟩, rfl⟩ := List.cons.inj hf' |>.imp_left Frame.mk.inj
    cases hsame : k'.same k with
    | false => rfl
    | true =>
      -- the thread owns the creation that is pending for the key
      obtain ⟨b, hfl, -⟩ := Point.flight_of_making hk'
      have hl : m.Live t f.call f.point := by
        rw [Live, hf]
        exact List.mem_cons_of_mem _ hmem
      obtain ⟨x, hx, -, ho⟩ := hc.owned hl hfl
      rw [Shared.pending?_congr _ hsame] at hx
      exact absurd ho (hp.acquires hnext hx)
  | @leave t c o rest hf =>
    apply ha.set
    rintro c' k ttl a rest' rfl
    have := hm.tail hf _ List.mem_cons_self
    cases this
  | fail f hf _ =>
    apply ha.set
    intro c' k ttl a rest' hf'
    cases hf'

theorem Trace.apart {clock interval : Int} (h : Trace (.start policy clock interval) es m) :
    m.Apart := by
  induction h with
  | start => exact fun hf => by simp at hf
  | next ht hc ih => exact hc.apart ht.custody ht.account.shaped ih

theorem Trace.seeks {clock interval : Int} (h : Trace (.start policy clock interval) es m)
    {e : Timed} {k : Key} {a : Nat} (he : e ∈ es) (hw : e.what = .joined k a) :
    Seeks es e.call k := by
  obtain ⟨pre, post, hes⟩ := List.append_of_mem he
  cases h.origin hes with
  | called op ho => simp [hw] at ho
  | returned o ho => simp [hw] at ho
  | @turn m es₀ op p s course hs hs' hstory _ _ hp _ hpre =>
    have hmem : .joined k a ∈ hs ++ e.what :: hs' := by simp [hw]
    obtain ⟨ttl, rfl⟩ := hp.seeks hmem
    have hop := hstory.admits
    cases op with
    | fetch key ttl' =>
      obtain ⟨b, hb, hc, hbw⟩ := hstory.mem_called
      refine ⟨b, ?_, hc, key, ttl', hbw, hstory.fetches.1.key⟩
      rw [hes, hpre]
      exact List.mem_append_left _ (List.mem_append_left _ hb)
    | _ => cases hop

theorem supply_of_waits (hw : p.waits = true) {a : Nat} (hg : p.grip? = some a) :
    ∃ k ttl, p = .fetch (.supply k ttl a) := by
  cases p with
  | fetch f =>
    cases f with
    | supply k ttl b =>
      cases hg
      exact ⟨k, ttl, rfl⟩
    | lookup => cases hg
    | _ => cases hw
  | _ => cases hg

theorem Custody.same (hc : m.Custody es) {d : Nat} {q : Point} {k k' : Key} {a : Nat}
    (hp : m.Live t c p) (hq : m.Live u d q) (hs : p.stake? = some (k, a))
    (hs' : q.stake? = some (k', a)) : k.same k' = true := by
  obtain ⟨e, he, k₁, -, -, hjoin, hk₁⟩ := hc.joined hp (Point.joined_of_stake hs)
  obtain rfl := hk₁ k hs
  obtain ⟨e', he', k₂, -, -, hjoin', hk₂⟩ := hc.joined hq (Point.joined_of_stake hs')
  obtain rfl := hk₂ k' hs'
  exact hc.agree he he' hjoin hjoin'

theorem Trace.awaited {clock interval : Int} (h : Trace (.start policy clock interval) es m)
    (hw : m.Awaits t u) : u ≠ t ∧ Kept es m t u := by
  have hc := h.custody
  obtain ⟨hf, hheld⟩ := hw
  obtain ⟨d, q, hq, hg⟩ := hc.held hheld
  have hl := live_of_frames hf
  obtain ⟨e, he, k₁, -, hcall, hjoin, hk₁⟩ := hc.joined hl rfl
  obtain rfl := hk₁ _ rfl
  obtain ⟨e', he', k₂, -, hcall', hjoin', hk₂⟩ := hc.joined hq (Point.joined_of_grip hg)
  have hsame := hc.agree he he' hjoin hjoin'
  refine ⟨?_, .intro hf hq hg (hcall ▸ h.seeks he hjoin) (hcall' ▸ h.seeks he' hjoin') hsame⟩
  rintro rfl
  have hmem : ⟨d, q⟩ ∈ m.frames u := hq
  rw [hf, List.mem_cons] at hmem
  obtain hmem | hmem := hmem
  · cases hmem
    cases hg
  · obtain ⟨k, ttl, rfl⟩ := supply_of_waits (h.account.shaped.tail hf _ hmem) hg
    obtain rfl := hk₂ k rfl
    have := h.apart hf _ hmem k rfl
    rw [Key.same_comm, hsame] at this
    cases this

theorem Trace.awaits_unique {clock interval : Int} (h : Trace (.start policy clock interval) es m)
    {u' : Tid} (hw : m.Awaits t u) (hw' : m.Awaits t u') : u = u' := by
  obtain ⟨hf, hheld⟩ := hw
  obtain ⟨hf', hheld'⟩ := hw'
  cases hf.symm.trans hf'
  obtain ⟨d, q, hq, hg⟩ := h.custody.held hheld
  obtain ⟨d', q', hq', hg'⟩ := h.custody.held hheld'
  obtain rfl := h.account.guarded.sole hq hq' hg hg'
  exact h.account.numbered.apart hq hq'

def Passable (m : Machine) : Prop := ∀ {u : Tid}, m.shared.gate = some u →
  ∃ c now rest, m.frames u = ⟨c, .sweep (.recheck now)⟩ :: rest

theorem Passable.set (hg : m.Passable) {s : Shared} {fs : List Frame}
    (hs : s.gate = m.shared.gate)
    (ht : ∀ c now rest, m.frames t ≠ ⟨c, .sweep (.recheck now)⟩ :: rest) :
    Passable ⟨s, m.calls.set t fs⟩ := by
  intro u hu
  obtain ⟨c, now, rest, hf⟩ := hg (hs ▸ hu)
  have hne : u ≠ t := by
    rintro rfl
    exact ht c now rest hf
  exact ⟨c, now, rest, by rwa [frames_mk_set_of_ne _ _ hne]⟩

theorem Change.passable (h : Change m es m') (hg : m.Passable) : m'.Passable := by
  cases h with
  | advance ns => exact hg
  | @call t op hb =>
    refine hg.set rfl fun c now rest hf => ?_
    have := hb.waits hf
    cases this
  | @turn t c p rest hs s course hf hp =>
    intro u hu
    obtain ⟨rfl, now, hnext⟩ | ⟨hu, hne⟩ := hp.gate hu
    · exact ⟨c, now, rest, by rw [frames_mk_set, hnext]⟩
    · obtain ⟨c', now, rest', hf'⟩ := hg hu
      have hut : u ≠ t := by
        rintro rfl
        cases hf.symm.trans hf'
        exact hne now rfl
      exact ⟨c', now, rest', by rwa [frames_mk_set_of_ne _ _ hut]⟩
  | leave hf =>
    refine hg.set rfl fun c now rest hf' => ?_
    cases hf.symm.trans hf'
  | fail f hf hw =>
    refine hg.set rfl fun c now rest hf' => ?_
    cases hf.symm.trans hf'
    cases hw

theorem Trace.passable {clock interval : Int} (h : Trace (.start policy clock interval) es m) :
    m.Passable := by
  induction h with
  | start => exact fun hu => by cases hu
  | next _ hc ih => exact hc.passable ih

end Machine

end Lapse
