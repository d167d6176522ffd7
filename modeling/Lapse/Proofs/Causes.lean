import Mathlib.Data.List.Chain
import Lapse.Proofs.Dialog
import Lapse.Proofs.Moves
import Lapse.Proofs.Sweeping
import Lapse.Proofs.Waiting

namespace Lapse

theorem chronicle_append_list (now : Int) (g h : List Move) :
    chronicle now (g ++ h) = chronicle now g ++ chronicle (clockAfter now g) h := by
  induction g generalizing now with
  | nil => rfl
  | cons mv g ih =>
    simp only [List.cons_append, chronicle, ih, List.append_assoc]
    rfl

theorem Run.clock_eq {m m' : Machine} {h : List Move} (hr : Run m h m') :
    m'.shared.clock = clockAfter m.shared.clock h := by
  induction hr with
  | start => rfl
  | next _ hl ih =>
    rw [clockAfter_append, ← ih]
    exact Machine.clock_next? hl

theorem Run.chronicle_next {m m' : Machine} {h : List Move} (hr : Run m h m') (mv : Move) :
    chronicle m.shared.clock (h ++ [mv]) =
      chronicle m.shared.clock h ++ mv.events.map (Timed.mk · m'.shared.clock) := by
  rw [chronicle_append, hr.clock_eq]

theorem Run.trace_append {policy : Policy} {clock interval : Int} {g h : List Move}
    {m m' : Machine} (hg : Run (.start policy clock interval) g m) (hh : Run m h m') :
    Machine.Trace (.start policy clock interval)
      (chronicle clock g ++ chronicle m.shared.clock h) m' := by
  have hclock : m.shared.clock = clockAfter clock g := hg.clock_eq
  rw [hclock, ← chronicle_append_list]
  exact (hg.trans hh).trace

theorem Run.trace_from {m m' : Machine} {h : List Move} (hr : Run m h m') (hm : m.Shaped) :
    Machine.Trace m (chronicle m.shared.clock h) m' := by
  induction hr with
  | start => exact .start
  | next hr hl ih =>
    rw [hr.chronicle_next]
    exact ih.trans ((ih.shaped hm).trace hl)

theorem Point.ask?_of_awaitsSweep {p : Point} (h : p.awaitsSweep = true) : p.ask? = none := by
  cases p with
  | fetch f =>
    cases f with
    | lookup => rfl
    | _ => cases h
  | erase e =>
    cases e with
    | finish => rfl
    | _ => cases h
  | _ => cases h

namespace Machine

variable {start m m' : Machine} {es es' : List Timed}

structure Recent (n : Nat) (es : List Timed) (m : Machine) : Prop where
  fresh : n ≤ m.shared.fresh
  frames : ∀ t, ∀ f ∈ m.frames t, n ≤ f.call
  events : ∀ e ∈ es, n ≤ e.call

theorem Recent.set {n : Nat} (hr : Recent n es m) {s : Shared} {t : Tid} {fs : List Frame}
    (hs : n ≤ s.fresh) (hfs : ∀ f ∈ fs, n ≤ f.call) (he : ∀ e ∈ es', n ≤ e.call) :
    Recent n (es ++ es') ⟨s, m.calls.set t fs⟩ where
  fresh := hs
  frames u f hf := by
    by_cases hu : u = t
    · subst hu
      rw [frames_mk_set] at hf
      exact hfs f hf
    · rw [frames_mk_set_of_ne _ _ hu] at hf
      exact hr.frames u f hf
  events e h := by
    obtain h | h := List.mem_append.1 h
    · exact hr.events e h
    · exact he e h

theorem Change.recent {n : Nat} (h : Change m es' m') (hr : Recent n es m) :
    Recent n (es ++ es') m' := by
  have stack : ∀ {t f rest}, m.frames t = f :: rest → n ≤ f.call ∧ ∀ g ∈ rest, n ≤ g.call := by
    intro t f rest hf
    have := hr.frames t
    rwa [hf, List.forall_mem_cons] at this
  cases h with
  | advance ns => exact ⟨hr.fresh, hr.frames, by simpa using hr.events⟩
  | @call t op _ =>
    refine hr.set (Nat.le_succ_of_le hr.fresh) ?_ (by simpa [Shared.tell] using hr.fresh)
    exact List.forall_mem_cons.2 ⟨hr.fresh, hr.frames t⟩
  | turn hf hp =>
    obtain ⟨hc, hrest⟩ := stack hf
    refine hr.set (Nat.le_trans hr.fresh hp.keeps.fresh) (List.forall_mem_cons.2 ⟨hc, hrest⟩) ?_
    intro e he
    obtain ⟨x, -, rfl⟩ := List.mem_map.1 he
    exact hc
  | leave hf =>
    obtain ⟨hc, hrest⟩ := stack hf
    exact hr.set hr.fresh hrest (by simpa [Shared.tell] using hc)
  | fail f hf _ =>
    obtain ⟨hc, hrest⟩ := stack hf
    exact hr.set hr.fresh (List.forall_mem_cons.2 ⟨hc, hrest⟩) (by simp)

theorem Trace.recent (h : Trace start es m) (h₀ : ∀ t, start.frames t = []) :
    Recent start.shared.fresh es m := by
  induction h with
  | start => exact ⟨Nat.le_refl _, fun t f hf => by simp [h₀] at hf, by simp⟩
  | next _ hc ih => exact hc.recent ih

def Stacked (es : List Timed) (m : Machine) : Prop :=
  ∀ t, (m.frames t).IsChain fun f g => g.point.awaitsSweep = true →
    ∃ b ∈ es, b.call = f.call ∧ b.what = .called .sweep

theorem Change.stacked (h : Change m es' m') (hs : m.Stacked es) : m'.Stacked (es ++ es') := by
  have old : ∀ t, (m.frames t).IsChain fun f g => g.point.awaitsSweep = true →
      ∃ b ∈ es ++ es', b.call = f.call ∧ b.what = .called .sweep := by
    intro t
    refine (hs t).imp fun f g hfg hw => ?_
    obtain ⟨b, hb, h⟩ := hfg hw
    exact ⟨b, List.mem_append_left _ hb, h⟩
  have set : ∀ {s : Shared} {t : Tid} {fs : List Frame},
      (fs.IsChain fun f g => g.point.awaitsSweep = true →
        ∃ b ∈ es ++ es', b.call = f.call ∧ b.what = .called .sweep) →
      Stacked (es ++ es') ⟨s, m.calls.set t fs⟩ := by
    intro s t fs hfs u
    by_cases hu : u = t
    · subst hu
      rwa [frames_mk_set]
    · rw [frames_mk_set_of_ne _ _ hu]
      exact old u
  -- the frame on top may stand anywhere, since the chain looks at what is below
  have top : ∀ {t c p p' rest}, m.frames t = ⟨c, p⟩ :: rest →
      (⟨c, p'⟩ :: rest : List Frame).IsChain fun f g => g.point.awaitsSweep = true →
        ∃ b ∈ es ++ es', b.call = f.call ∧ b.what = .called .sweep := by
    intro t c p p' rest hf
    have := old t
    rw [hf, List.isChain_cons] at this
    exact List.isChain_cons.2 this
  cases h with
  | advance ns => exact old
  | @call t op hb =>
    refine set (List.isChain_cons.2 ⟨fun g hg hw => ?_, old t⟩)
    obtain ⟨fs, hf⟩ : ∃ fs, m.frames t = g :: fs := by
      cases hf : m.frames t with
      | nil => simp [hf] at hg
      | cons f fs =>
        obtain rfl : f = g := by simpa [hf] using hg
        exact ⟨fs, rfl⟩
    obtain hc | ⟨rfl, -⟩ := hb
    · simp [hf, mayCall, Point.ask?_of_awaitsSweep hw] at hc
    · exact ⟨_, List.mem_append_right _ List.mem_cons_self, rfl, rfl⟩
  | turn hf hp => exact set (top hf)
  | @leave t c o rest hf =>
    refine set ?_
    have := old t
    rw [hf] at this
    exact this.of_cons
  | fail f hf _ => exact set (top hf)

theorem Trace.stacked (h : Trace start es m) (h₀ : ∀ t, start.frames t = []) : m.Stacked es := by
  induction h with
  | start =>
    intro t
    rw [h₀]
    exact .nil
  | next _ hc ih => exact hc.stacked ih

variable {policy : Policy} {clock interval : Int} {t : Tid} {c : Nat} {p : Point}
  {rest : List Frame}

theorem Story.passed_of_error {x : Fault} (h : Story policy t c .sweep es (.done (.error x))) :
    ∃ e ∈ trail es c, ∃ now, e.what = .passed now := by
  generalize hp : Point.done (.error x) = p at h
  induction h with
  | call => cases hp
  | @turn m es p hs s course h ha hl hgoes _ =>
    have hop := h.admits
    have old : (∃ e ∈ trail es c, ∃ now, e.what = .passed now) →
        ∃ e ∈ trail (es ++ m.shared.tell t c hs) c, ∃ now, e.what = .passed now := by
      rintro ⟨e, he, hw⟩
      rw [trail_append]
      exact ⟨e, List.mem_append_left _ he, hw⟩
    cases hgoes with
    | sweep hg =>
      have htale := h.sweeps
      cases hg with
      | unapproved => exact old htale.1.passed
      | undisposed => exact old (Sweep.Passing.passed htale)
      | _ => cases hp
    | _ => cases hop
  | @fail es p f h hw _ =>
    have hop := h.admits
    cases p with
    | sweep | done => cases hw
    | _ => cases hop
  | others _ ho ih =>
    rw [trail_append, trail_eq_nil ho, List.append_nil]
    exact ih hp

end Machine

/-- Why a fetch on the thread fails so. -/
inductive Cause (es : List Timed) (t : Tid) (c : Nat) (key ttl : Value) (x : Fault) : Prop
  | refused : ttl.toInteger = .error x → Cause es t c key ttl x
  | unkeyed : key.toKey c = .error x → Cause es t c key ttl x
  | unsupplied {b : Timed} : b ∈ es → b.call = c → b.what = .replied (.error x) →
    Cause es t c key ttl x
  | recursive {b : Timed} {key' ttl' : Value} {k k' : Key} : x = .recursive k →
    key.toKey c = .ok k → b ∈ es → b.thread = t → b.call ≠ c →
    b.what = .called (.fetch key' ttl') → key'.toKey b.call = .ok k' → k'.same k = true →
    Cause es t c key ttl x
  | swept {e : Timed} {now : Int} : e ∈ es → e.what = .passed now → Cause es t c key ttl x

theorem Cause.append {es : List Timed} {t : Tid} {c : Nat} {key ttl : Value} {x : Fault}
    (h : Cause es t c key ttl x) (es' : List Timed) : Cause (es ++ es') t c key ttl x := by
  cases h with
  | refused h => exact .refused h
  | unkeyed h => exact .unkeyed h
  | unsupplied hb hc hw => exact .unsupplied (List.mem_append_left _ hb) hc hw
  | recursive hx hk hb ht hc hw hk' hs =>
    exact .recursive hx hk (List.mem_append_left _ hb) ht hc hw hk' hs
  | swept he hw => exact .swept (List.mem_append_left _ he) hw

def CalledFetch (es : List Timed) (c : Nat) (key ttl : Value) : Prop :=
  ∃ b ∈ es, b.call = c ∧ b.what = .called (.fetch key ttl)

namespace Machine

variable {policy : Policy} {clock interval : Int} {m m' : Machine} {es₀ es : List Timed} {t : Tid}
  {c n : Nat} {p : Point} {rest : List Frame} {key ttl : Value} {x : Fault}

theorem Trace.cause (h : Trace (.start policy clock interval) (es₀ ++ es) m)
    (hold : ∀ e ∈ es₀, e.call < n) (hn : Recent n es m) (hf : m.frames t = ⟨c, p⟩ :: rest)
    {hs : List Happening} {s : Shared} {course : Course Point}
    (hp : p.Goes m.shared t c hs s course) (hx : course.next = .done (.error x))
    (hb : CalledFetch (es₀ ++ es) c key ttl) : Cause es t c key ttl x := by
  have hl := live_of_frames hf
  have new : ∀ {e u d q}, e ∈ es₀ ++ es → e.call = d → m.Live u d q → e ∈ es := by
    intro e u d q he hd hq
    obtain he | he := List.mem_append.1 he
    · have := hold e he
      have := hn.frames u _ hq
      dsimp only at this
      omega
    · exact he
  obtain ⟨op, hstory⟩ := h.story hl
  obtain ⟨b, hmem, hcall, hw⟩ := hb
  obtain rfl := hstory.called hmem hcall hw
  have hop := hstory.admits
  cases hp with
  | @fetch f _ _ fcourse hg =>
    have htale : f.Tale c key ttl (trail (es₀ ++ es) c) := hstory.fetches
    have hdialog : f.Dialog (trail (es₀ ++ es) c) := hstory.converses
    cases hg with
    | refused hr =>
      cases hx
      obtain ⟨rfl, rfl, -⟩ := htale
      exact .refused hr
    | unkeyed hk =>
      cases hx
      obtain ⟨rfl, -, -⟩ := htale
      exact .unkeyed hk
    | @recursive k ns y _ hpend howner =>
      cases hx
      obtain ⟨hy, hyk⟩ := Shared.mem_of_pending? hpend
      obtain ⟨d, q, k', hq, hflight⟩ := h.custody.owner hy howner
      have hne : d ≠ c := by
        rintro rfl
        cases h.account.numbered.point_unique hq hl
        cases hflight
      have hstake := Point.stake_of_flight hflight
      obtain ⟨e, he, k₁, -, rfl, hjoin, hk₁⟩ := h.custody.joined hq (Point.joined_of_stake hstake)
      obtain rfl := hk₁ k' hstake
      obtain ⟨e', he', hjoin'⟩ := h.custody.made y hy
      have hsame := Key.same_trans (h.custody.agree he he' hjoin hjoin') hyk
      obtain ⟨op', hstory'⟩ := h.story hq
      obtain ⟨b', hb', hcall', key', ttl', hw', hkey⟩ := h.seeks he hjoin
      obtain rfl := hstory'.called hb' hcall' hw'
      obtain ⟨now, l, htrail, -⟩ := hstory'.trail_eq
      have hfirst : ⟨⟨t, e.call, .called (.fetch key' ttl')⟩, now⟩ ∈ trail (es₀ ++ es) e.call := by
        rw [htrail]
        exact List.mem_cons_self
      exact .recursive rfl htale.1.key (new (mem_trail.1 hfirst).1 rfl hq) rfl hne rfl hkey hsame
    | released =>
      cases hx
      obtain ⟨k, r, hlearn, ho⟩ := hdialog
      obtain ⟨-, e, he, hw⟩ := hlearn.mem
      cases r with
      | ok v => cases ho
      | error y =>
        cases ho
        obtain ⟨he, hc⟩ := mem_trail.1 he
        exact .unsupplied (new he hc hl) hc hw
    | _ => cases hx
  | _ => cases hop

structure Excused (es : List Timed) (m : Machine) : Prop where
  live : ∀ {t c key ttl x}, CalledFetch es c key ttl → m.Live t c (.done (.error x)) →
    Cause es t c key ttl x
  returned : ∀ {e key ttl x}, e ∈ es → e.what = .returned (.error x) →
    CalledFetch es e.call key ttl → Cause es e.thread e.call key ttl x

theorem Makes.calledFetch {l : Label} {evs : List Event} (h : m.Makes l evs m') {now : Int}
    (hc : c < m.shared.fresh) (hb : CalledFetch (es ++ evs.map (Timed.mk · now)) c key ttl) :
    CalledFetch es c key ttl := by
  obtain ⟨b, hb, rfl, hw⟩ := hb
  obtain hb | hb := List.mem_append.1 hb
  · exact ⟨b, hb, rfl, hw⟩
  · obtain ⟨e, he, rfl⟩ := List.mem_map.1 hb
    cases h with
    | advance ns => cases he
    | call _ =>
      obtain rfl := List.mem_singleton.1 he
      exact absurd hc (Nat.lt_irrefl _)
    | turn _ _ hp _ =>
      obtain ⟨y, hy, rfl⟩ := List.mem_map.1 he
      dsimp only at hw
      exact absurd (hw ▸ hy) (hp.inner.1 _)
    | gate _ _ _ | leave _ _ | fail _ _ =>
      obtain rfl := List.mem_singleton.1 he
      cases hw

theorem Makes.excused {l : Label} {evs : List Event} (h : m.Makes l evs m')
    (ht : Trace (.start policy clock interval) (es₀ ++ es) m) (hold : ∀ e ∈ es₀, e.call < n)
    (hn : Recent n es m) (hs : m.Stacked es) (hx : m.Excused es) :
    m'.Excused (es ++ evs.map (Timed.mk · m.shared.clock)) := by
  have hnum := ht.account.numbered
  have step : (∀ {u d y}, m'.Live u d (.done (.error y)) → d < m.shared.fresh ∧
        (m.Live u d (.done (.error y)) ∨
          ∀ key ttl, CalledFetch es d key ttl → Cause es u d key ttl y)) →
      (∀ e ∈ evs, ∀ y, e.what = .returned (.error y) →
        m.Live e.thread e.call (.done (.error y))) →
      m'.Excused (es ++ evs.map (Timed.mk · m.shared.clock)) := by
    intro hlive hret
    constructor
    case live =>
      intro u d key ttl y hb hl
      obtain ⟨hlt, hl | hcause⟩ := hlive hl
      · exact (hx.live (h.calledFetch hlt hb) hl).append _
      · exact (hcause key ttl (h.calledFetch hlt hb)).append _
    case returned =>
      intro e key ttl y he hw hb
      obtain he | he := List.mem_append.1 he
      · have hlt := ht.account.calls e (List.mem_append_right _ he)
        exact (hx.returned he hw (h.calledFetch hlt hb)).append _
      · obtain ⟨e', he', rfl⟩ := List.mem_map.1 he
        have hl := hret e' he' y hw
        exact (hx.live (h.calledFetch (hnum.bound hl) hb) hl).append _
  cases h with
  | advance ns => exact step (fun hl => ⟨hnum.bound hl, .inl hl⟩) (by simp)
  | @call t op _ =>
    refine step (fun hl => ?_) (by simp)
    obtain ⟨-, -, hop⟩ | hl := live_call.1 hl
    · cases op <;> cases hop
    · exact ⟨hnum.bound hl, .inl hl⟩
  | @turn _ t c p rest hs' s course _ hf hp _ =>
    refine step (fun {u d y} hl => ?_) fun e he y hw => ?_
    · obtain ⟨rfl, rfl, hdone⟩ | ⟨hl, -⟩ := (hnum.live_turn hf).1 hl
      · refine ⟨hnum.bound (live_of_frames hf), .inr fun key ttl ⟨b, hb, h⟩ => ?_⟩
        exact ht.cause hold hn hf hp hdone.symm ⟨b, List.mem_append_right _ hb, h⟩
      · exact ⟨hnum.bound hl, .inl hl⟩
    · obtain ⟨z, hz, rfl⟩ := List.mem_map.1 he
      dsimp only at hw
      exact absurd (hw ▸ hz) (hp.inner.2 _)
  | @gate _ t c p p' rest _ hf hp =>
    refine step (fun {u d y} hl => ?_) (by simp)
    obtain ⟨rfl, hmem⟩ | ⟨-, hl⟩ := live_set.1 hl
    · obtain hmem | hmem | hmem : _ ∨ _ ∨ _ := by simpa using hmem
      · cases hmem.2
      · have := hp.awaitsSweep
        rw [← hmem.2] at this
        cases this
      · have hl : m.Live u d (.done (.error y)) := by
          rw [Live, hf]
          exact List.mem_cons_of_mem _ hmem
        exact ⟨hnum.bound hl, .inl hl⟩
    · exact ⟨hnum.bound hl, .inl hl⟩
  | @leave t c o rest hf _ =>
    refine step (fun hl => ?_) fun e he y hw => ?_
    · obtain ⟨hl, -⟩ := (hnum.live_leave hf).1 hl
      exact ⟨hnum.bound hl, .inl hl⟩
    · obtain rfl := List.mem_singleton.1 he
      cases hw
      exact live_of_frames hf
  | @fail t c f below others hf hc =>
    have hbelow : m.Live t below.call below.point := by
      rw [Live, hf]
      exact List.mem_cons_of_mem _ List.mem_cons_self
    refine step (fun {u d y} hl => ?_) fun e he y hw => ?_
    · obtain ⟨rfl, hmem⟩ | ⟨-, hl⟩ := live_set.1 hl
      · obtain hmem | hmem := List.mem_cons.1 hmem
        · cases hmem
          refine ⟨hnum.bound hbelow, .inr fun _ _ _ => ?_⟩
          -- the call that failed is the gated sweep of the one below
          have hwaits := ht.account.shaped.tail hf below List.mem_cons_self
          have haw : below.point.awaitsSweep = true := by
            simpa [Point.waits, show below.point.ask?.isSome = false from hc] using hwaits
          have hchain := hs u
          rw [hf, List.isChain_cons_cons] at hchain
          obtain ⟨b, hb, hcall, hw⟩ := hchain.1 haw
          obtain ⟨op, hstory⟩ := ht.story (live_of_frames hf)
          obtain rfl := hstory.called (List.mem_append_right _ hb) hcall hw
          obtain ⟨e, he, now, hpassed⟩ := hstory.passed_of_error
          obtain ⟨he, hcall⟩ := mem_trail.1 he
          obtain he | he := List.mem_append.1 he
          · have := hold e he
            have := hn.frames u ⟨c, .done (.error f)⟩ (live_of_frames hf)
            dsimp only at this
            omega
          · exact .swept he hpassed
        · have hl : m.Live u d (.done (.error y)) := by
            rw [Live, hf]
            exact List.mem_cons_of_mem _ (List.mem_cons_of_mem _ hmem)
          exact ⟨hnum.bound hl, .inl hl⟩
      · exact ⟨hnum.bound hl, .inl hl⟩
    · obtain rfl := List.mem_singleton.1 he
      cases hw
      exact live_of_frames hf

end Machine

theorem Run.excused {policy : Policy} {clock interval : Int} {g h : List Move} {m₀ m : Machine}
    (hg : Run (.start policy clock interval) g m₀) (h₀ : ∀ t, m₀.frames t = [])
    (hr : Run m₀ h m) : m.Excused (chronicle m₀.shared.clock h) := by
  induction hr with
  | start => exact ⟨fun _ hl => by simp [Machine.Live, h₀] at hl, fun he => by cases he⟩
  | @next h m m' l es hr hl ih =>
    rw [hr.chronicle_next]
    have ht : Machine.Trace m₀ (chronicle m₀.shared.clock h) m :=
      hr.trace_from hg.trace.account.shaped
    exact (Machine.makes_of_next? hl).excused (hg.trace_append hr) hg.trace.account.calls
      (ht.recent h₀) (ht.stacked h₀) ih

end Lapse
