import Lapse.Proofs.Replay

/-!
The story of a call: how it began, the turns that it took, and what others did meanwhile. Every
call in progress has one, and so has every event.
-/

namespace Lapse

def trail (es : List Timed) (c : Nat) : List Timed := es.filter (·.call == c)

theorem trail_append (es es' : List Timed) (c : Nat) :
    trail (es ++ es') c = trail es c ++ trail es' c :=
  List.filter_append ..

theorem trail_eq_nil {es : List Timed} {c : Nat} (h : ∀ e ∈ es, e.call ≠ c) :
    trail es c = [] :=
  List.filter_eq_nil_iff.2 (by simpa using h)

theorem mem_trail {es : List Timed} {c : Nat} {e : Timed} :
    e ∈ trail es c ↔ e ∈ es ∧ e.call = c := by
  simp [trail]

@[simp] theorem trail_tell (s : Shared) (t : Tid) (c : Nat) (hs : List Happening) :
    trail (s.tell t c hs) c = s.tell t c hs :=
  List.filter_eq_self.2 (by simp [Shared.tell])

namespace Machine

inductive Story (policy : Policy) (t : Tid) (c : Nat) (op : Op) : List Timed → Point → Prop
  | call {m : Machine} {es : List Timed} : m.Account policy es → c = m.shared.fresh →
    Story policy t c op (es ++ m.shared.tell t c [.called op]) op.start
  | turn {m : Machine} {es : List Timed} {p : Point} {hs : List Happening} {s : Shared}
    {course : Course Point} :
    Story policy t c op es p → m.Account policy es → m.Live t c p →
    p.Goes m.shared t c hs s course → Story policy t c op (es ++ m.shared.tell t c hs) course.next
  | fail {es : List Timed} {p : Point} (f : Fault) :
    Story policy t c op es p → p.awaitsSweep = true → Story policy t c op es (.done (.error f))
  | others {es es' : List Timed} {p : Point} :
    Story policy t c op es p → (∀ e ∈ es', e.call ≠ c) → Story policy t c op (es ++ es') p

inductive Origin (policy : Policy) (pre : List Timed) (e : Timed) : Prop
  | called {m : Machine} (op : Op) : e.what = .called op → m.Account policy pre →
    e.call = m.shared.fresh → Origin policy pre e
  | turn {m : Machine} {es : List Timed} {op : Op} {p : Point} {s : Shared}
    {course : Course Point} (hs hs' : List Happening) :
    Story policy e.thread e.call op es p → m.Account policy es → m.Live e.thread e.call p →
    p.Goes m.shared e.thread e.call (hs ++ e.what :: hs') s course → e.clock = m.shared.clock →
    pre = es ++ m.shared.tell e.thread e.call hs → Origin policy pre e
  | returned {op : Op} (o : Outcome) : e.what = .returned o →
    Story policy e.thread e.call op pre (.done o) → Origin policy pre e

variable {policy : Policy} {m m' : Machine} {es es' : List Timed} {t : Tid} {c : Nat} {op : Op}
  {p : Point}

theorem Change.story (h : Change m es' m') (ha : m.Account policy es)
    (hs : ∀ {t c p}, m.Live t c p → ∃ op, Story policy t c op es p) (hl : m'.Live t c p) :
    ∃ op, Story policy t c op (es ++ es') p := by
  -- what others show does not bear the number of a call in progress
  have other : ∀ {u d t' c' q hs'}, m.Live u d q → d ≠ c' →
      ∃ op, Story policy u d op (es ++ m.shared.tell t' c' hs') q := by
    intro u d t' c' q hs' hq hne
    obtain ⟨op, h⟩ := hs hq
    exact ⟨op, h.others (by simp [Shared.tell, Ne.symm hne])⟩
  cases h with
  | advance ns =>
    obtain ⟨op, h⟩ := hs hl
    exact ⟨op, by simpa using h⟩
  | @call u op _ =>
    obtain ⟨rfl, rfl, rfl⟩ | hl := live_call.1 hl
    · exact ⟨op, .call ha rfl⟩
    · exact other hl (Nat.ne_of_lt (ha.numbered.bound hl))
  | turn hf hp =>
    obtain ⟨rfl, rfl, rfl⟩ | ⟨hl, hne⟩ := (ha.numbered.live_turn hf).1 hl
    · obtain ⟨op, h⟩ := hs (live_of_frames hf)
      exact ⟨op, h.turn ha (live_of_frames hf) hp⟩
    · exact other hl hne
  | leave hf =>
    obtain ⟨hl, hne⟩ := (ha.numbered.live_leave hf).1 hl
    exact other hl hne
  | fail f hf hw =>
    rw [List.append_nil]
    obtain ⟨rfl, rfl, rfl⟩ | ⟨hl, -⟩ := (ha.numbered.live_turn hf).1 hl
    · obtain ⟨op, h⟩ := hs (live_of_frames hf)
      exact ⟨op, h.fail f hw⟩
    · exact hs hl

theorem Trace.story {clock interval : Int}
    (h : Trace (.start policy clock interval) es m) (hl : m.Live t c p) :
    ∃ op, Story policy t c op es p := by
  induction h generalizing t c p with
  | start => simp [Live] at hl
  | next ht hc ih => exact hc.story ht.account ih hl

theorem Change.origin (h : Change m es' m') (ha : m.Account policy es)
    (hs : ∀ {t c p}, m.Live t c p → ∃ op, Story policy t c op es p) {pre post : List Timed}
    {e : Timed} (he : es' = pre ++ e :: post) : Origin policy (es ++ pre) e := by
  cases h with
  | call hb =>
    cases pre with
    | nil =>
      cases he
      exact .called _ rfl (by simpa using ha) rfl
    | cons => simp [Shared.tell] at he
  | turn hf hp =>
    obtain ⟨op, h⟩ := hs (live_of_frames hf)
    obtain ⟨xs, ys, rfl, rfl, hys⟩ := List.map_eq_append_iff.1 he
    obtain ⟨y, zs, rfl, rfl, -⟩ := List.map_eq_cons_iff.1 hys
    exact .turn xs zs h ha (live_of_frames hf) hp rfl rfl
  | leave hf =>
    obtain ⟨op, h⟩ := hs (live_of_frames hf)
    cases pre with
    | nil =>
      cases he
      exact .returned _ rfl (by simpa using h)
    | cons => simp [Shared.tell] at he
  | _ => simp at he

theorem Trace.origin {clock interval : Int} (h : Trace (.start policy clock interval) es m)
    {pre post : List Timed} {e : Timed} (he : es = pre ++ e :: post) : Origin policy pre e := by
  obtain ⟨es₀, m₀, m₁, xs, ys, ht, hc, rfl⟩ := h.locate he
  exact hc.origin ht.account ht.story rfl

end Machine

def Op.admits : Op → Point → Bool
  | _, .done _ => true
  | fetch .., .fetch _ => true
  | erase _, .erase _ => true
  | clear, .clear _ => true
  | sweep, .sweep _ => true
  | size, .size => true
  | listing, .listing => true
  | interval, .interval => true
  | setInterval _, .setInterval _ => true
  | setInterval _, .restart => true
  | _, _ => false

theorem Point.Goes.admits {s s' : Shared} {t : Tid} {call : Nat} {p : Point}
    {hs : List Happening} {c : Course Point} {op : Op} (h : p.Goes s t call hs s' c)
    (hp : op.admits p = true) : op.admits c.next = true := by
  cases h with
  | @fetch _ _ _ c _ => cases op <;> cases hp; cases c <;> rfl
  | @erase _ _ _ c _ => cases op <;> cases hp; cases c <;> rfl
  | @clear _ _ _ c _ => cases op <;> cases hp; cases c <;> rfl
  | @sweep _ _ _ c _ => cases op <;> cases hp; cases c <;> rfl
  | _ => cases op <;> cases hp; rfl

theorem Point.Goes.inner {s s' : Shared} {t : Tid} {call : Nat} {p : Point}
    {hs : List Happening} {c : Course Point} (h : p.Goes s t call hs s' c) :
    (∀ op, .called op ∉ hs) ∧ ∀ o, .returned o ∉ hs := by
  cases h with
  | fetch h => cases h <;> simp
  | erase h => cases h <;> simp
  | clear h => cases h <;> simp
  | sweep h => cases h <;> simp
  | _ => simp

namespace Machine

variable {policy : Policy} {m m' : Machine} {es es' : List Timed} {t : Tid} {c : Nat} {op : Op}
  {p : Point}

theorem Account.trail_fresh (ha : m.Account policy es) : trail es m.shared.fresh = [] :=
  trail_eq_nil fun e he => Nat.ne_of_lt (ha.calls e he)

theorem Story.admits (h : Story policy t c op es p) : op.admits p = true := by
  induction h with
  | call => cases op <;> rfl
  | turn _ _ _ hp ih => exact hp.admits ih
  | fail => cases op <;> rfl
  | others _ _ ih => exact ih

theorem Story.trail_eq (h : Story policy t c op es p) :
    ∃ now l, trail es c = ⟨⟨t, c, .called op⟩, now⟩ :: l ∧
      ∀ e ∈ l, ∀ op', e.what ≠ .called op' := by
  induction h with
  | @call m es ha hc =>
    subst hc
    refine ⟨m.shared.clock, [], ?_, by simp⟩
    rw [trail_append, ha.trail_fresh, trail_tell]
    rfl
  | @turn m es p hs s course _ _ _ hp ih =>
    obtain ⟨now, l, hl, hn⟩ := ih
    refine ⟨now, l ++ m.shared.tell t c hs, by simp [trail_append, hl], ?_⟩
    intro e he op'
    obtain he | he := List.mem_append.1 he
    · exact hn e he op'
    · obtain ⟨x, hx, rfl⟩ := List.mem_map.1 he
      rintro rfl
      exact hp.inner.1 op' hx
  | fail _ _ _ ih => exact ih
  | others _ ho ih => rwa [trail_append, trail_eq_nil ho, List.append_nil]

theorem Story.called (h : Story policy t c op es p) {e : Timed} {op' : Op} (he : e ∈ es)
    (hc : e.call = c) (hw : e.what = .called op') : op' = op := by
  obtain ⟨now, l, hl, hn⟩ := h.trail_eq
  have : e ∈ trail es c := mem_trail.2 ⟨he, hc⟩
  rw [hl, List.mem_cons] at this
  obtain rfl | hm := this
  · cases hw
    rfl
  · exact absurd hw (hn e hm op')

theorem Story.mem_called (h : Story policy t c op es p) :
    ∃ e ∈ es, e.call = c ∧ e.what = .called op := by
  obtain ⟨now, l, hl, -⟩ := h.trail_eq
  have first : ⟨⟨t, c, .called op⟩, now⟩ ∈ trail es c := by
    rw [hl]
    exact List.mem_cons_self
  exact ⟨_, (mem_trail.1 first).1, rfl, rfl⟩

end Machine

end Lapse
