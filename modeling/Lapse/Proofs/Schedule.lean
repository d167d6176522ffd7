import Lapse.Proofs.Causes
import Lapse.Proofs.Episode
import Lapse.Proofs.Gate
import Lapse.Proofs.Jobs

namespace Lapse

def Happening.starts : Happening → Bool
  | called .sweep => false
  | called _ => true
  | _ => false

def started (es : List Timed) : List Nat := (es.filter (·.what.starts)).map (·.call)

/-- The moves of those who do the jobs: each thread does one at a time, `who` tells which job a call
does, and the callbacks answer as the jobs have it. -/
def Label.Does (who : Nat → Job) (disposal : Value → Reply) (m : Machine) : Label → Prop
  | .call t op => m.frames t = [] ∧ op = (who m.shared.fresh).op
  | .step _ => True
  | .reply t r => ∀ c p rest a, m.frames t = ⟨c, p⟩ :: rest → p.ask? = some a →
    r = (who c).answer disposal a
  | .advance _ => False

inductive Status (g : Setting) (j : Job) (c : Nat) (x : Except Fault Key) (before : Option Lease)
    (es : List Timed) (m : Machine) : Prop
  | working {t : Tid} {p : Point} : m.Live t c p →
    j.Stage g x before (m.shared.leaseOf x) (requests (trail es c)) p →
    m.shared.creationOf x = p.tends? → outcomes es c = [] → Status g j c x before es m
  | returned {o : Outcome} : (∀ t p, ¬m.Live t c p) → outcomes es c = [o] →
    (j.upshot g (x.map Key.toValue) before).Holds (m.shared.leaseOf x) (requests (trail es c)) o →
    m.shared.creationOf x = none → Status g j c x before es m

def Point.Lulls (s : Shared) : Point → Prop
  | .sweep .begin => True
  | .sweep (.due now) => now < s.due
  | .done o => o = .ok (.count 0)
  | _ => False

inductive Stack (cs : List Nat) (s : Shared) : List Frame → Prop
  | idle : Stack cs s []
  | job {c : Nat} {p : Point} : c ∈ cs → Stack cs s [⟨c, p⟩]
  | swept {d c : Nat} {q p : Point} : d ∉ cs → q.Lulls s → c ∈ cs → Stack cs s [⟨d, q⟩, ⟨c, p⟩]

def Arranged (s₀ : Store) (own : Key → Prop) (s : Store) : Prop :=
  ∃ kept new, s.entries = kept ++ new ∧ (kept.map (·.key)).Sublist s₀.keys ∧
    ∀ e ∈ new, s₀.contains e.key = false ∧ own e.key

/-- The calls of jobs are under way that began when the shared state was `s₀`. -/
structure Underway (g : Setting) (who : Nat → Job) (s₀ : Shared) (es : List Timed) (m : Machine) :
    Prop where
  fits : m.shared.Fits g
  early : m.shared.clock < m.shared.due
  frames : ∀ t, Stack (started es) m.shared (m.frames t)
  status : ∀ c ∈ started es, Status g (who c) c ((who c).key.toKey c)
    (s₀.leaseOf ((who c).key.toKey c)) es m
  aside : ∀ k, (∀ c ∈ started es, ∀ k', (who c).key.toKey c = .ok k' → k'.same k = false) →
    m.shared.lease? k = s₀.lease? k ∧ m.shared.creation? k = none
  arranged : Arranged s₀.store (fun k => ∃ c ∈ started es, (who c).key.toKey c = .ok k)
    m.shared.store
  requested : ∀ e ∈ es, e.what.request?.isSome = true → e.call ∈ started es
  nodup : (started es).Nodup

structure Apart (who : Nat → Job) (cs : List Nat) : Prop where
  keyed : ∀ c ∈ cs, ∀ key, who c = .erase key → ∃ k, key.toKey c = .ok k
  apart : ∀ c ∈ cs, ∀ d ∈ cs, c ≠ d → ∀ k k', (who c).key.toKey c = .ok k →
    (who d).key.toKey d = .ok k' → k.same k' = false

theorem Apart.mono {who : Nat → Job} {cs cs' : List Nat} (h : Apart who cs) (hcs : cs' ⊆ cs) :
    Apart who cs' :=
  ⟨fun c hc => h.keyed c (hcs hc), fun c hc d hd => h.apart c (hcs hc) d (hcs hd)⟩

theorem started_append (es es' : List Timed) : started (es ++ es') = started es ++ started es' := by
  simp [started]

theorem requests_append (es es' : List Timed) :
    requests (es ++ es') = requests es ++ requests es' :=
  List.filterMap_append

theorem outcomes_append (es es' : List Timed) (c : Nat) :
    outcomes (es ++ es') c = outcomes es c ++ outcomes es' c := by
  simp [outcomes, trail_append]

namespace Arranged

variable {s₀ s s' : Store} {own own' : Key → Prop} {x : Except Fault Key} {before : Option Lease}

theorem mono (h : Arranged s₀ own s) (hown : ∀ k, own k → own' k) : Arranged s₀ own' s := by
  obtain ⟨kept, new, heq, hkept, hnew⟩ := h
  exact ⟨kept, new, heq, hkept, fun e he => ⟨(hnew e he).1, hown _ (hnew e he).2⟩⟩

theorem touched (h : Arranged s₀ own s) (ht : s.Touched x before s')
    (hb : before = none → ∀ k, x = .ok k → s₀.contains k = false) (hk : ∀ k, x = .ok k → own k) :
    Arranged s₀ own s' := by
  obtain ⟨kept, new, heq, hkept, hnew⟩ := h
  cases ht with
  | same => exact ⟨kept, new, heq, hkept, hnew⟩
  | @replaced k r =>
    let put (e : Entry) : Entry := if e.key.same k then { e with record := r } else e
    have hkey (e : Entry) : (put e).key = e.key := by
      simp only [put]
      split <;> rfl
    refine ⟨kept.map put, new.map put, by simp [Store.replace, heq, put], ?_, ?_⟩
    · simpa [Function.comp_def, hkey] using hkept
    · intro e' he'
      obtain ⟨e, he, rfl⟩ := List.mem_map.1 he'
      rw [hkey]
      exact hnew e he
  | @appended k r hx _ hn =>
    refine ⟨kept, new ++ [⟨k, r⟩], by simp [Store.append, heq], hkept, ?_⟩
    intro e he
    obtain he | rfl := by simpa using he
    · exact hnew e he
    · exact ⟨hb hn k hx, hk k hx⟩
  | @erased k =>
    refine ⟨kept.filter fun e => !e.key.same k, new.filter fun e => !e.key.same k,
      by simp [Store.erase, heq], ?_, fun e he => hnew e (List.mem_filter.1 he).1⟩
    exact (List.filter_sublist.map _).trans hkept

end Arranged

section

variable {g : Setting} {who : Nat → Job} {s₀ : Shared} {es es' : List Timed} {m m' : Machine}
  {t u : Tid} {c d : Nat} {p q : Point} {x : Except Fault Key} {before : Option Lease}
  {rest : List Frame}

theorem Status.others {j : Job} (h : Status g j c x before es m)
    (hlive : ∀ u q, m'.Live u c q ↔ m.Live u c q) (hl : m'.shared.leaseOf x = m.shared.leaseOf x)
    (hc : m'.shared.creationOf x = m.shared.creationOf x) (hes : ∀ e ∈ es', e.call ≠ c) :
    Status g j c x before (es ++ es') m' := by
  have htrail : trail (es ++ es') c = trail es c := by
    rw [trail_append, trail_eq_nil hes, List.append_nil]
  have hout : outcomes (es ++ es') c = outcomes es c := by rw [outcomes, htrail, outcomes]
  cases h with
  | working hlv hst hp ho =>
    refine .working ((hlive _ _).2 hlv) ?_ (hc.trans hp) (hout.trans ho)
    rw [hl, htrail]
    exact hst
  | returned hn ho hu hcn =>
    refine .returned (fun u q h => hn u q ((hlive u q).1 h)) (hout.trans ho) ?_ (hc.trans hcn)
    rw [hl, htrail]
    exact hu

theorem Point.Lulls.congr {s s' : Shared} (h : q.Lulls s) (hs : s'.due = s.due) : q.Lulls s' := by
  cases q with
  | sweep w => cases w <;> simp_all [Point.Lulls]
  | _ => exact h

theorem Point.Goes.lulls {s s' : Shared} {hs : List Happening} {course : Course Point}
    (h : q.Goes s t d hs s' course) (hs₀ : s.clock < s.due) (hq : q.Lulls s) :
    s' = s ∧ hs = [] ∧ course.next.Lulls s := by
  cases h with
  | sweep h =>
    cases h with
    | begun => exact ⟨rfl, rfl, hs₀⟩
    | early => exact ⟨rfl, rfl, rfl⟩
    | ripe h => exact absurd hq (Int.not_lt.2 h)
    | _ => exact hq.elim
  | _ => exact hq.elim

theorem Point.Lulls.awaitsSweep {s : Shared} (h : q.Lulls s) : q.awaitsSweep = false := by
  cases q with
  | sweep w => rfl
  | done o => rfl
  | _ => exact h.elim

theorem Stack.congr {cs cs' : List Nat} {s s' : Shared} {fs : List Frame} (h : Stack cs s fs)
    (hcs : ∀ f ∈ fs, (f.call ∈ cs' ↔ f.call ∈ cs)) (hs : s'.due = s.due) : Stack cs' s' fs := by
  cases h with
  | idle => exact .idle
  | job hc => exact .job ((hcs _ (List.mem_singleton_self _)).2 hc)
  | @swept d c q p hd hq hc =>
    refine .swept (fun h => hd ((hcs ⟨d, q⟩ (by simp)).1 h)) (Point.Lulls.congr hq hs)
      ((hcs ⟨c, p⟩ (by simp)).2 hc)

theorem Stack.set {cs : List Nat} {s s' : Shared} {fs : List Frame}
    (hm : ∀ u, u ≠ t → Stack cs s (m.frames u)) (ht : Stack cs s fs) (u : Tid) : Stack cs s (Machine.frames ⟨s', m.calls.set t fs⟩ u) := by
  by_cases hu : u = t
  · subst hu
    rwa [Machine.frames_mk_set]
  · rw [Machine.frames_mk_set_of_ne _ _ hu]
    exact hm u hu

theorem started_tell {s s' : Shared} {hs : List Happening} {course : Course Point}
    (h : p.Goes s t c hs s' course) : started (s.tell t c hs) = [] := by
  have hno := h.inner.1
  simp only [started, Shared.tell, List.map_eq_nil_iff, List.filter_eq_nil_iff, List.mem_map]
  rintro _ ⟨x, hx, rfl⟩
  cases x <;> simp_all [Happening.starts]

theorem Status.of_live {j : Job} (h : Status g j c x before es m) (hn : m.Numbered)
    (hl : m.Live t c p) :
    j.Stage g x before (m.shared.leaseOf x) (requests (trail es c)) p ∧
      m.shared.creationOf x = p.tends? ∧ outcomes es c = [] := by
  cases h with
  | working hl' hst hp ho =>
    obtain rfl := hn.point_unique hl hl'
    exact ⟨hst, hp, ho⟩
  | returned hno => exact absurd hl (hno t p)

theorem Machine.Custody.creation_apart {es : List Timed} (hc : m.Custody es) {k k' : Key} {a : Nat}
    (h : m.shared.creation? k = some a) (h' : m.shared.creation? k' = some a) :
    k.same k' = true := by
  simp only [Shared.creation?, Option.map_eq_some_iff] at h h'
  obtain ⟨x, hx, rfl⟩ := h
  obtain ⟨y, hy, hid⟩ := h'
  obtain ⟨hxm, hxk⟩ := Shared.mem_of_pending? hx
  obtain ⟨hym, hyk⟩ := Shared.mem_of_pending? hy
  obtain ⟨e, he, hew⟩ := hc.made x hxm
  obtain ⟨e', he', hew'⟩ := hc.made y hym
  rw [hid] at hew'
  exact Key.same_trans (Key.same_symm hxk) (Key.same_trans (hc.agree he he' hew hew') hyk)

theorem Shared.call_of_tell {s : Shared} {hs : List Happening} {e : Timed}
    (h : e ∈ s.tell t c hs) : e.call = c := by
  obtain ⟨x, -, rfl⟩ := List.mem_map.1 h
  rfl

theorem requests_tell (s : Shared) (t : Tid) (c : Nat) (hs : List Happening) :
    requests (s.tell t c hs) = hs.filterMap Happening.request? := by
  simp [requests, Shared.tell, List.filterMap_map]

theorem outcomes_tell {s s' : Shared} {hs : List Happening} {course : Course Point}
    (h : p.Goes s t c hs s' course) : outcomes (s.tell t c hs) c = [] := by
  have hno := h.inner.2
  rw [outcomes, trail_tell]
  simp only [Shared.tell, List.filterMap_eq_nil_iff, List.mem_map]
  rintro _ ⟨x, hx, rfl⟩
  cases x <;> simp_all [Happening.returned?]

namespace Underway

variable {es₀ : List Timed}

theorem requested_tell (hw : Underway g who s₀ es m) {cs : List Nat} (hcs : started es ⊆ cs)
    (hc : c ∈ cs) (s : Shared) (hs : List Happening) :
    ∀ e ∈ es ++ s.tell t c hs, e.what.request?.isSome = true → e.call ∈ cs := by
  intro e he hreq
  obtain he | he := List.mem_append.1 he
  · exact hcs (hw.requested e he hreq)
  · exact Shared.call_of_tell he ▸ hc

theorem turn (hw : Underway g who s₀ es m) (hn : m.Numbered) (hone : m.shared.OnePerKey)
    (hc : m.Custody es₀) (hapart : Apart who (started es)) (hf : m.frames t = [⟨c, p⟩])
    (hmem : c ∈ started es) {hs : List Happening} {s : Shared} {course : Course Point}
    (hp : p.Goes m.shared t c hs s course)
    (hr : ∀ r, hs = [.replied r] → ∀ a, p.ask? = some a → r = (who c).answer g.disposal a) :
    Underway g who s₀ (es ++ m.shared.tell t c hs) ⟨s, m.calls.set t [⟨c, course.next⟩]⟩ := by
  obtain ⟨hst, hcr, ho⟩ := (hw.status c hmem).of_live hn (Machine.live_of_frames hf)
  obtain ⟨hst', hcr'⟩ := hp.stage hw.fits rfl hst hcr hone hr
  have hdue := hp.due_eq hst
  have hstarted : started (es ++ m.shared.tell t c hs) = started es := by
    rw [started_append, started_tell hp, List.append_nil]
  have hlive (u : Tid) (d : Nat) (q : Point) :
      Machine.Live ⟨s, m.calls.set t [⟨c, course.next⟩]⟩ u d q ↔
        (u = t ∧ d = c ∧ q = course.next) ∨ m.Live u d q ∧ d ≠ c := hn.live_turn hf
  have beside {k : Key} (hne : ∀ k', (who c).key.toKey c = .ok k' → k'.same k = false) :
      s.lease? k = m.shared.lease? k ∧ s.creation? k = m.shared.creation? k := by
    refine hp.aside rfl hst hne fun a ha ha' => ?_
    obtain ⟨k', hk', hcr⟩ := Shared.exists_of_creationOf (hcr.trans ha)
    cases (hc.creation_apart hcr ha').symm.trans (hne k' hk')
  refine ⟨⟨?_, ?_⟩, ?_, ?_, ?_, ?_, ?_, ?_, hstarted ▸ hw.nodup⟩
  · exact hp.keeps.policy.trans hw.fits.policy
  · exact hp.keeps.clock.trans hw.fits.clock
  · have := hw.early
    simpa [hp.keeps.clock, hdue] using this
  · rw [hstarted]
    exact Stack.set (fun u _ => (hw.frames u).congr (fun _ _ => Iff.rfl) hdue) (.job hmem)
  · rw [hstarted]
    intro d hd
    by_cases hdc : d = c
    · subst hdc
      refine .working ((hlive t d _).2 (.inl ⟨rfl, rfl, rfl⟩)) ?_ hcr' ?_
      · rw [trail_append, requests_append, trail_tell, requests_tell]
        exact hst'
      · rw [outcomes_append, ho, outcomes_tell hp, List.append_nil]
    · have hbeside (k : Key) (hk : (who d).key.toKey d = .ok k) :=
        beside fun k' hk' => hapart.apart c hmem d hd (Ne.symm hdc) k' k hk' hk
      refine (hw.status d hd).others (fun u q => ?_)
        (Shared.leaseOf_congr fun k hk => (hbeside k hk).1)
        (Shared.creationOf_congr fun k hk => (hbeside k hk).2) ?_
      · rw [hlive]
        simp [hdc]
      · exact fun e he => (Shared.call_of_tell he).symm ▸ Ne.symm hdc
  · rw [hstarted]
    intro k hk
    obtain ⟨hl, hcr⟩ := beside (hk c hmem)
    obtain ⟨hl', hcr'⟩ := hw.aside k hk
    exact ⟨hl.trans hl', hcr.trans hcr'⟩
  · rw [hstarted]
    refine hw.arranged.touched (hp.touched rfl hst) (fun hb k hk => ?_) fun k hk => ⟨c, hmem, hk⟩
    rw [hk] at hb
    exact Store.find?_eq_none_iff.1 (Shared.find?_of_lease? hb)
  · rw [hstarted]
    exact hw.requested_tell (List.Subset.refl _) hmem _ _

theorem calm (hw : Underway g who s₀ es m)
    (hs : m'.shared = { m.shared with fresh := m'.shared.fresh })
    (hframes : ∀ u, Stack (started es) m'.shared (m'.frames u))
    (hlive : ∀ c ∈ started es, ∀ u q, m'.Live u c q ↔ m.Live u c q)
    (hes : ∀ e ∈ es', e.call ∉ started es ∧ e.what.starts = false ∧ e.what.request? = none) :
    Underway g who s₀ (es ++ es') m' := by
  have hstarted : started (es ++ es') = started es := by
    have : started es' = [] := by
      simp only [started, List.map_eq_nil_iff, List.filter_eq_nil_iff, Bool.not_eq_true]
      exact fun e he => (hes e he).2.1
    rw [started_append, this, List.append_nil]
  have hlease (k : Key) : m'.shared.lease? k = m.shared.lease? k := by rw [hs]; rfl
  have hcreation (k : Key) : m'.shared.creation? k = m.shared.creation? k := by rw [hs]; rfl
  refine ⟨⟨?_, ?_⟩, ?_, ?_, ?_, ?_, ?_, ?_, hstarted ▸ hw.nodup⟩
  · rw [hs]
    exact hw.fits.policy
  · rw [hs]
    exact hw.fits.clock
  · rw [hs]
    exact hw.early
  · rw [hstarted]
    exact hframes
  · rw [hstarted]
    intro c hc
    exact (hw.status c hc).others (hlive c hc) (Shared.leaseOf_congr fun k _ => hlease k)
      (Shared.creationOf_congr fun k _ => hcreation k) fun e he heq => (hes e he).1 (heq ▸ hc)
  · rw [hstarted]
    intro k hk
    rw [hlease, hcreation]
    exact hw.aside k hk
  · rw [hstarted, hs]
    exact hw.arranged
  · rw [hstarted]
    intro e he hreq
    obtain he | he := List.mem_append.1 he
    · exact hw.requested e he hreq
    · simp [(hes e he).2.2] at hreq

theorem lull (hw : Underway g who s₀ es m) (hn : m.Numbered)
    (hf : m.frames t = [⟨d, q⟩, ⟨c, p⟩]) (hd : d ∉ started es) (hq : q.Lulls m.shared)
    (hc : c ∈ started es) {hs : List Happening} {s : Shared} {course : Course Point}
    (hp : q.Goes m.shared t d hs s course) :
    Underway g who s₀ (es ++ m.shared.tell t d hs)
      ⟨s, m.calls.set t [⟨d, course.next⟩, ⟨c, p⟩]⟩ := by
  obtain ⟨rfl, rfl, hnext⟩ := hp.lulls hw.early hq
  refine hw.calm rfl (Stack.set (fun u _ => hw.frames u) (.swept hd hnext hc))
    (fun e he u q' => ?_) (by simp [Shared.tell])
  rw [hn.live_turn hf]
  have : e ≠ d := fun h => hd (h ▸ he)
  simp [this]

theorem sweep (hw : Underway g who s₀ es m) (hb : ∀ c ∈ started es, c < m.shared.fresh)
    (hf : m.frames t = [⟨c, p⟩]) (hc : c ∈ started es) :
    Underway g who s₀ (es ++ m.shared.tell t m.shared.fresh [.called .sweep])
      (m.push t .sweep (m.frames t)).1 := by
  have hnew : m.shared.fresh ∉ started es := fun h => Nat.lt_irrefl _ (hb _ h)
  refine hw.calm rfl (Stack.set (fun u _ => (hw.frames u).congr (fun _ _ => Iff.rfl) rfl) ?_)
    (fun e he u q => ?_) ?_
  · rw [hf]
    exact .swept hnew trivial hc
  · rw [Machine.live_call]
    have : e ≠ m.shared.fresh := fun h => hnew (h ▸ he)
    simp [this]
  · simpa [Shared.tell, Happening.starts, Happening.request?] using hnew

theorem wake (hw : Underway g who s₀ es m) (hn : m.Numbered)
    (hf : m.frames t = [⟨d, q⟩, ⟨c, p⟩]) (hd : d ∉ started es) (hc : c ∈ started es)
    (o : Outcome) :
    Underway g who s₀ (es ++ m.shared.tell t d [.returned o]) (m.setFrames t [⟨c, p⟩]) := by
  refine hw.calm rfl (Stack.set (fun u _ => hw.frames u) (.job hc)) (fun e he u q' => ?_) ?_
  · rw [hn.live_leave hf]
    have : e ≠ d := fun h => hd (h ▸ he)
    simp [this]
  · simpa [Shared.tell, Happening.starts, Happening.request?] using hd

theorem call (hw : Underway g who s₀ es m) (hb : ∀ e ∈ es, e.call < m.shared.fresh)
    (hn : m.Numbered) (hf : m.frames t = [])
    (hapart : Apart who (started es ++ [m.shared.fresh])) :
    Underway g who s₀ (es ++ m.shared.tell t m.shared.fresh [.called (who m.shared.fresh).op])
      (m.push t (who m.shared.fresh).op (m.frames t)).1 := by
  generalize hc : m.shared.fresh = c at hb hapart ⊢
  have hstarted : started (es ++ m.shared.tell t c [.called (who c).op]) = started es ++ [c] := by
    rw [started_append]
    cases who c <;> rfl
  have hlt {d : Nat} (hd : d ∈ started es) : d < c := by
    obtain ⟨e, he, rfl⟩ := List.mem_map.1 hd
    exact hb e (List.mem_filter.1 he).1
  have hnew : ∀ e ∈ es, e.call ≠ c := fun e he => Nat.ne_of_lt (hb e he)
  have hfree (k : Key) (hk : (who c).key.toKey c = .ok k) := hw.aside k fun d hd k' hk' =>
    hapart.apart d (by simp [hd]) c (by simp) (Nat.ne_of_lt (hlt hd)) k' k hk' hk
  have hlease := Shared.leaseOf_congr fun k hk => (hfree k hk).1
  have hstatus : Status g (who c) c ((who c).key.toKey c) (s₀.leaseOf ((who c).key.toKey c))
      (es ++ m.shared.tell t c [.called (who c).op]) (m.push t (who c).op (m.frames t)).1 := by
    have htrail : trail (es ++ m.shared.tell t c [.called (who c).op]) c =
        m.shared.tell t c [.called (who c).op] := by
      rw [trail_append, trail_eq_nil hnew, trail_tell, List.nil_append]
    refine .working (Machine.live_call.2 (.inl ⟨rfl, hc.symm, rfl⟩)) ?_ ?_ ?_
    · rw [htrail, requests_tell]
      cases hj : who c with
      | fetch key ttl supplier =>
        rw [hj] at hlease
        exact ⟨key, ttl, supplier, rfl, rfl, rfl, hlease, rfl⟩
      | erase key =>
        obtain ⟨k, hk⟩ := hapart.keyed c (by simp) key hj
        rw [hj] at hlease
        exact ⟨key, k, rfl, hk, rfl, hlease, rfl⟩
    · have hnone : m.shared.creationOf ((who c).key.toKey c) = none := by
        cases hk : (who c).key.toKey c with
        | error f => rfl
        | ok k => exact (hfree k hk).2
      refine hnone.trans ?_
      cases who c <;> rfl
    · rw [outcomes, htrail]
      rfl
  refine ⟨⟨hw.fits.policy, hw.fits.clock⟩, hw.early, ?_, ?_, ?_, ?_, ?_, ?_⟩
  · rw [hstarted]
    refine Stack.set (fun u _ => (hw.frames u).congr (fun f hmem => ?_) rfl) ?_
    · have : f.call < m.shared.fresh := hn.bound hmem
      simp [show f.call ≠ c by omega]
    · rw [hf, hc]
      exact .job (by simp)
  · rw [hstarted]
    intro d hd
    obtain hd | hd := List.mem_append.1 hd
    · refine (hw.status d hd).others (fun u q => ?_) rfl rfl ?_
      · rw [Machine.live_call]
        simp [hc, Nat.ne_of_lt (hlt hd)]
      · simpa [Shared.tell] using (Nat.ne_of_lt (hlt hd)).symm
    · rw [List.mem_singleton.1 hd]
      exact hstatus
  · rw [hstarted]
    exact fun k' hk' => hw.aside k' fun d hd => hk' d (by simp [hd])
  · rw [hstarted]
    refine hw.arranged.mono fun k' h => ?_
    obtain ⟨d, hd, hk'⟩ := h
    exact ⟨d, by simp [hd], hk'⟩
  · rw [hstarted]
    exact hw.requested_tell (List.subset_append_left _ _) (by simp) _ _
  · rw [hstarted, List.nodup_append]
    refine ⟨hw.nodup, List.nodup_singleton c, fun d hd e he => ?_⟩
    rw [List.mem_singleton.1 he]
    exact Nat.ne_of_lt (hlt hd)

theorem leave (hw : Underway g who s₀ es m) (hn : m.Numbered) {o : Outcome}
    (hf : m.frames t = [⟨c, .done o⟩]) (hmem : c ∈ started es) :
    Underway g who s₀ (es ++ m.shared.tell t c [.returned o]) (m.setFrames t []) := by
  have hstarted : started (es ++ m.shared.tell t c [.returned o]) = started es := by
    rw [started_append]
    exact List.append_nil _
  have hlive (u : Tid) (d : Nat) (q : Point) :
      Machine.Live (m.setFrames t []) u d q ↔ m.Live u d q ∧ d ≠ c := hn.live_leave hf
  refine ⟨⟨hw.fits.policy, hw.fits.clock⟩, hw.early, ?_, ?_, ?_, ?_, ?_, hstarted ▸ hw.nodup⟩
  · rw [hstarted]
    exact Stack.set (fun u _ => hw.frames u) .idle
  · rw [hstarted]
    intro d hd
    by_cases hdc : d = c
    · subst hdc
      obtain ⟨hu, hcr, hout⟩ := (hw.status d hd).of_live hn (Machine.live_of_frames hf)
      refine .returned (o := o) (fun u q h => ((hlive u d q).1 h).2 rfl) ?_ ?_ hcr
      · rw [outcomes_append, hout]
        simp [outcomes, Shared.tell, trail, Happening.returned?]
      · rw [trail_append, requests_append, trail_tell, requests_tell]
        exact ⟨hu.outcome, hu.lease, (List.append_nil _).trans hu.requests⟩
    · refine (hw.status d hd).others (fun u q => ?_) rfl rfl ?_
      · rw [hlive]
        simp [hdc]
      · exact fun e he => (Shared.call_of_tell he).symm ▸ Ne.symm hdc
  · rw [hstarted]
    exact hw.aside
  · rw [hstarted]
    exact hw.arranged
  · rw [hstarted]
    exact hw.requested_tell (List.Subset.refl _) hmem _ _

theorem answered {l : Label} {evs : List Event} (hl : l.Does who g.disposal m)
    (hnext : m.next? l = some (m', evs)) (hd : l.Drives t) (hf : m.frames t = ⟨c, p⟩ :: rest)
    {r : Reply} (hevs : evs = [⟨t, c, .replied r⟩]) {a : Ask} (ha : p.ask? = some a) :
    r = (who c).answer g.disposal a := by
  have hmay : mayCall (m.frames t) = true := by simp [hf, mayCall, ha]
  cases l with
  | step u =>
    obtain rfl : u = t := hd
    simp [Machine.next?, Machine.step?_of_mayCall hmay] at hnext
  | reply u r' =>
    obtain rfl : u = t := hd
    have hr := hl c p rest a hf ha
    simp only [Machine.next?, Machine.reply?, hf, Option.map_eq_some_iff] at hnext
    obtain ⟨turn, -, hturn⟩ := hnext
    have hhead := (congrArg Prod.snd hturn).trans hevs
    simp only [List.cons.injEq, Event.mk.injEq, Happening.replied.injEq] at hhead
    exact hhead.1.2.2 ▸ hr
  | _ => exact hd.elim

theorem makes (hw : Underway g who s₀ es m) {policy : Policy} {clock interval : Int}
    (ht : Machine.Trace (.start policy clock interval) (es₀ ++ es) m) {l : Label}
    {evs : List Event} (hnext : m.next? l = some (m', evs)) (hl : l.Does who g.disposal m)
    (hapart : Apart who (started (es ++ evs.map (Timed.mk · m.shared.clock)))) :
    Underway g who s₀ (es ++ evs.map (Timed.mk · m.shared.clock)) m' := by
  have hn := ht.account.numbered
  have hb : ∀ e ∈ es, e.call < m.shared.fresh := fun e he =>
    ht.account.calls e (List.mem_append_right _ he)
  have hstart : ∀ c ∈ started es, c < m.shared.fresh := by
    intro c hc
    obtain ⟨e, he, rfl⟩ := List.mem_map.1 hc
    exact hb e (List.mem_filter.1 he).1
  rw [started_append] at hapart
  have hold : Apart who (started es) := hapart.mono (List.subset_append_left _ _)
  cases Machine.makes_of_next? hnext with
  | advance ns => exact hl.elim
  | @call t op hmay =>
    obtain ⟨hf, rfl⟩ := hl
    refine hw.call hb hn hf (hapart.mono ?_)
    cases who m.shared.fresh <;> exact List.Subset.refl _
  | @turn l t c p rest hs s course hd hf hp hgo =>
    have hshape := hw.frames t
    rw [hf] at hshape
    rw [show (hs.map (Event.mk t c)).map (Timed.mk · m.shared.clock) = m.shared.tell t c hs by
      simp [Shared.tell]]
    cases hshape with
    | job hc =>
      refine hw.turn hn ht.account.guarded.keys ht.custody hold hf hc hp fun r hr a ha => ?_
      subst hr
      exact answered hl hnext hd hf rfl ha
    | swept hd hq hc => exact hw.lull hn hf hd hq hc hp
  | @gate l t c p p' rest hd hf hp =>
    have hshape := hw.frames t
    rw [hf] at hshape
    cases hshape with
    | job hc =>
      -- the call takes a turn that changes nothing shared, and then its sweep begins
      have hturn := hw.turn hn ht.account.guarded.keys ht.custody hold hf hc hp (by simp)
      rw [show m.shared.tell t c [] = [] from rfl, List.append_nil] at hturn
      have hsweep := hturn.sweep hstart (Machine.frames_mk_set ..) hc
      simpa [Machine.push, Shared.tell] using hsweep
    | swept hd hq hc =>
      obtain ⟨-, -, hlulls⟩ := hp.lulls hw.early hq
      exact absurd hp.awaitsSweep (by simpa using hlulls.awaitsSweep)
  | @leave t c o rest hf hmay =>
    have hshape := hw.frames t
    rw [hf] at hshape
    cases hshape with
    | job hc => exact hw.leave hn hf hc
    | swept hd hq hc => exact hw.wake hn hf hd hc o
  | @fail t c f below others hf hmay =>
    have hshape := hw.frames t
    rw [hf] at hshape
    cases hshape with
    | swept hd hq hc => cases hq

end Underway

end

end Lapse
