import Lapse.Proofs.Causes
import Lapse.Proofs.Fate

namespace Lapse

def lane (es : List Timed) (t : Tid) : List Timed := es.filter (·.thread == t)

theorem lane_append (es es' : List Timed) (t : Tid) :
    lane (es ++ es') t = lane es t ++ lane es' t :=
  List.filter_append ..

theorem lane_eq_self {es : List Timed} {t : Tid} (h : ∀ e ∈ es, e.thread = t) :
    lane es t = es :=
  List.filter_eq_self.2 (by simpa using h)

theorem lane_eq_nil {es : List Timed} {t : Tid} (h : ∀ e ∈ es, e.thread ≠ t) : lane es t = [] :=
  List.filter_eq_nil_iff.2 (by simpa using h)

theorem mem_lane {es : List Timed} {t : Tid} {e : Timed} :
    e ∈ lane es t ↔ e ∈ es ∧ e.thread = t := by
  simp [lane]

namespace Fetch

def Begun (c : Nat) (key ttl : Value) (ls : List Timed) : Prop :=
  ∃ p b, ls = p ++ [b] ∧ b.call = c ∧ b.what = .called (.fetch key ttl)

inductive Followed (c : Nat) (key ttl : Value) (d : Nat) (ls l : List Timed) : Prop
  | intro {p : List Timed} {b b' : Timed} {n : Int} : ttl.toInteger = .ok n →
    ls = p ++ b :: b' :: l → b.call = c → b.what = .called (.fetch key ttl) → b'.call = d →
    b'.what = .called .sweep → Followed c key ttl d ls l

inductive Resumed (c : Nat) (key ttl : Value) (o : Outcome) (ls l : List Timed) : Prop
  | intro {d : Nat} {q : List Timed} {e : Timed} : Followed c key ttl d ls (q ++ e :: l) →
    e.call = d → e.what = .returned o → Resumed c key ttl o ls l

/-- Why a fetch fails: it never has its sweep, or fails with that, or later for its key or by its
supplier. The frames are those of the calls that the fetch was made in. -/
inductive Fails (c : Nat) (key ttl : Value) (f : Fault) (ls : List Timed) (fs : List Frame) : Prop
  | refused : ttl.toInteger = .error f → Begun c key ttl ls → Fails c key ttl f ls fs
  | unswept : Resumed c key ttl (.error f) ls [] → Fails c key ttl f ls fs
  | unkeyed {a : Answer} {l : List Timed} : Resumed c key ttl (.ok a) ls l →
    key.toKey c = .error f → Fails c key ttl f ls fs
  | recursive {a : Answer} {l : List Timed} {k k' : Key} {g : Frame} {n : Nat} :
    Resumed c key ttl (.ok a) ls l → key.toKey c = .ok k → f = .recursive k → g ∈ fs →
    g.point.flight? = some (k', n) → k'.same k = true → Fails c key ttl f ls fs
  | unsupplied {a : Answer} {l : List Timed} {y : Timed} : Resumed c key ttl (.ok a) ls l →
    y ∈ ls → y.call = c → y.what = .replied (.error f) → Fails c key ttl f ls fs

/-- How a fetch stands on its thread, between the frames of the calls made in it and of the calls
that it was made in. -/
def Paced (c : Nat) (key ttl : Value) (ls : List Timed) (above fs : List Frame) : Point → Prop
  | .fetch (.coerce key' ttl') => key' = key ∧ ttl' = ttl ∧ above = [] ∧ Begun c key ttl ls
  | .fetch (.lookup ..) =>
    (∃ frames d p l, above = frames ++ [⟨d, p⟩] ∧ Followed c key ttl d ls l) ∨
      above = [] ∧ ∃ a l, Resumed c key ttl (.ok a) ls l
  | .fetch _ => ∃ a l, Resumed c key ttl (.ok a) ls l
  | .done (.error f) => Fails c key ttl f ls fs
  | _ => True

variable {c d : Nat} {key ttl : Value} {o : Outcome} {ls l l' : List Timed} {above fs : List Frame}

theorem Followed.append (h : Followed c key ttl d ls l) (l' : List Timed) :
    Followed c key ttl d (ls ++ l') (l ++ l') := by
  obtain @⟨p, b, b', n, hn, rfl, hc, hw, hd, hw'⟩ := h
  have hl : p ++ b :: b' :: l ++ l' = p ++ b :: b' :: (l ++ l') := by simp
  exact ⟨hn, hl, hc, hw, hd, hw'⟩

theorem Resumed.append (h : Resumed c key ttl o ls l) (l' : List Timed) :
    Resumed c key ttl o (ls ++ l') (l ++ l') := by
  obtain ⟨hf, hc, hw⟩ := h
  have := hf.append l'
  rw [List.append_assoc, List.cons_append] at this
  exact ⟨this, hc, hw⟩

theorem Followed.resumed {e : Timed} (h : Followed c key ttl d ls l) (hc : e.call = d)
    (hw : e.what = .returned o) : Resumed c key ttl o (ls ++ [e]) [] :=
  ⟨h.append [e], hc, hw⟩

theorem Paced.followed {f : Frame} {key' : Value} {n : Int}
    (h : Paced c key ttl ls [f] fs (.fetch (.lookup key' n))) :
    ∃ l, Followed c key ttl f.call ls l := by
  obtain ⟨frames, d, p, l, heq, hl⟩ | ⟨hnil, -⟩ := h
  · have heq : [] ++ [f] = frames ++ [⟨d, p⟩] := heq
    obtain ⟨-, hf⟩ := List.append_inj' heq rfl
    cases hf
    exact ⟨l, hl⟩
  · cases hnil

theorem Paced.waiting {p : Point} {f : Frame} {frames frames' : List Frame}
    (h : Paced c key ttl ls (frames ++ [f]) fs p) (hw : p.waits = true) (q : Point)
    (l' : List Timed) : Paced c key ttl (ls ++ l') (frames' ++ [⟨f.call, q⟩]) fs p := by
  cases p with
  | fetch g =>
    cases g with
    | coerce => cases hw
    | lookup key n =>
      obtain ⟨frames₁, d, q₁, l, heq, hl⟩ | ⟨hnil, -⟩ := h
      · obtain ⟨-, hf⟩ := List.append_inj' heq rfl
        cases List.singleton_inj.1 hf
        exact .inl ⟨_, _, _, _, rfl, hl.append l'⟩
      · simp at hnil
    | _ =>
      obtain ⟨a, l, hr⟩ := h
      exact ⟨a, _, hr.append l'⟩
  | done => cases hw
  | _ => trivial

theorem Paced.asking {p : Point} (h : Paced c key ttl ls above fs p) (ha : p.ask?.isSome = true)
    (above' : List Frame) (l' : List Timed) : Paced c key ttl (ls ++ l') above' fs p := by
  cases p with
  | fetch g =>
    cases g with
    | supply =>
      obtain ⟨a, l, hr⟩ := h
      exact ⟨a, _, hr.append l'⟩
    | _ => cases ha
  | done => cases ha
  | _ => trivial

theorem Paced.returned {p : Point} {e : Timed}
    (h : Paced c key ttl ls [⟨e.call, .done o⟩] fs p) (hw : p.waits = true)
    (hok : ∀ x, o = .error x → p.ask?.isSome = true) (he : e.what = .returned o) :
    Paced c key ttl (ls ++ [e]) [] fs p := by
  cases ha : p.ask?.isSome with
  | true => exact h.asking ha _ _
  | false =>
    have hw : p.awaitsSweep = true := by simpa [Point.waits, ha] using hw
    cases p with
    | fetch f =>
      cases f with
      | lookup key' n =>
        obtain ⟨l, hl⟩ := h.followed
        cases o with
        | ok a => exact .inr ⟨rfl, a, [], hl.resumed rfl he⟩
        | error x => cases hok x rfl
      | _ => cases hw
    | erase => trivial
    | _ => cases hw

theorem Paced.failed {p : Point} {f : Fault} {e : Timed}
    (h : Paced c key ttl ls [⟨e.call, .done (.error f)⟩] fs p)
    (hop : (Op.fetch key ttl).admits p = true) (hw : p.awaitsSweep = true)
    (he : e.what = .returned (.error f)) :
    Paced c key ttl (ls ++ [e]) [] fs (.done (.error f)) := by
  cases p with
  | fetch g =>
    cases g with
    | lookup key' n =>
      obtain ⟨l, hl⟩ := h.followed
      exact .unswept (hl.resumed rfl he)
    | _ => cases hw
  | erase => cases hop
  | _ => cases hw

end Fetch

theorem Fetch.Goes.paced {s s' : Shared} {t : Tid} {c : Nat} {key ttl : Value} {ls : List Timed}
    {f : Fetch} {hs : List Happening} {course : Course Fetch} {fs : List Frame}
    (h : f.Goes s t c hs s' course) (hp : Paced c key ttl ls [] fs (.fetch f))
    (hgate : ∀ f', course ≠ .gated f') (hkey : ∀ {key' n}, f = .lookup key' n → key' = key)
    (hmeans : ∀ {k n}, f = .register k n → key.toKey c = .ok k)
    (howner : ∀ {k n} {x : Creation}, f = .register k n → x ∈ s.pending → x.owner = some t →
      ∃ g ∈ fs, ∃ k', g.point.flight? = some (k', x.id) ∧ k'.same x.key = true)
    (hreply : ∀ {a : Nat} {x : Fault}, f = .release a (.error x) →
      ∃ y ∈ ls, y.call = c ∧ y.what = .replied (.error x)) :
    Paced c key ttl (ls ++ s.tell t c hs) [] fs (course.map .fetch).next := by
  have at_lookup : ∀ {key' n}, Paced c key ttl ls [] fs (.fetch (.lookup key' n)) →
      ∃ a l, Resumed c key ttl (.ok a) ls l := by
    intro key' n hp
    obtain ⟨_, _, _, _, hnil, -⟩ | ⟨-, h⟩ := hp
    · simp at hnil
    · exact h
  have stays : (∃ a l, Resumed c key ttl (.ok a) ls l) →
      ∃ a l, Resumed c key ttl (.ok a) (ls ++ s.tell t c hs) l := by
    rintro ⟨a, l, h⟩
    exact ⟨a, _, h.append _⟩
  cases h with
  | refused hr =>
    obtain ⟨rfl, rfl, -, hb⟩ := hp
    exact .refused hr (by simpa [Shared.tell] using hb)
  | coerced => exact absurd rfl (hgate _)
  | unkeyed hk =>
    obtain ⟨a, l, h⟩ := stays (at_lookup hp)
    obtain rfl := hkey rfl
    exact .unkeyed h hk
  | found | foundLate => trivial
  | missed => exact stays (at_lookup hp)
  | recursive _ hx ho =>
    obtain ⟨a, l, h⟩ := stays hp
    obtain ⟨hmem, hk⟩ := Shared.mem_of_pending? hx
    obtain ⟨g, hg, k', hflight, hsame⟩ := howner rfl hmem ho
    exact .recursive h (hmeans rfl) rfl hg hflight (Key.same_trans hsame hk)
  | @released a o =>
    cases o with
    | ok => trivial
    | error x =>
      obtain ⟨a, l, h⟩ := stays hp
      obtain ⟨y, hy, hc, hw⟩ := hreply rfl
      exact .unsupplied h (List.mem_append_left _ hy) hc hw
  | _ => exact stays hp

theorem Point.Goes.gates {s s' : Shared} {t : Tid} {c : Nat} {p p' : Point} {hs : List Happening}
    (h : p.Goes s t c hs s' (.gated p')) :
    (∃ key ttl n, ttl.toInteger = .ok n ∧ p = .fetch (.coerce key ttl) ∧
      p' = .fetch (.lookup key n)) ∨ p = .erase .sweep := by
  generalize hc : Course.gated p' = course at h
  cases h with
  | fetch h =>
    cases h with
    | coerced hn =>
      cases hc
      exact .inl ⟨_, _, _, hn, rfl, rfl⟩
    | _ => cases hc
  | erase h =>
    cases h <;> cases hc
    exact .inr rfl
  | clear h => cases h <;> cases hc
  | sweep h => cases h <;> cases hc
  | _ => cases hc

namespace Machine

structure Paced (es : List Timed) (m : Machine) : Prop where
  stands : ∀ {t : Tid} {above fs : List Frame} {c : Nat} {p : Point} {key ttl : Value},
    m.frames t = above ++ ⟨c, p⟩ :: fs → CalledFetch es c key ttl →
    Fetch.Paced c key ttl (lane es t) above fs p

variable {policy : Policy} {clock interval : Int} {m m' : Machine} {es : List Timed} {t : Tid}
  {c : Nat} {p : Point} {fs : List Frame} {key ttl : Value}

theorem Custody.making (hc : m.Custody es) {x : Creation} {u : Tid} (hx : x ∈ m.shared.pending)
    (ho : x.owner = some u) :
    ∃ d q k, m.Live u d q ∧ q.flight? = some (k, x.id) ∧ k.same x.key = true := by
  obtain ⟨d, q, k, hq, hflight⟩ := hc.owner hx ho
  have hstake := Point.stake_of_flight hflight
  obtain ⟨e, he, k', -, -, hw, hk⟩ := hc.joined hq (Point.joined_of_stake hstake)
  obtain rfl := hk k hstake
  obtain ⟨e', he', hw'⟩ := hc.made x hx
  exact ⟨d, q, k, hq, hflight, hc.agree he he' hw hw'⟩

theorem Trace.admits_of_called (ht : Trace (.start policy clock interval) es m)
    (hl : m.Live t c p) (hb : CalledFetch es c key ttl) : (Op.fetch key ttl).admits p = true := by
  obtain ⟨op, hstory⟩ := ht.story hl
  obtain ⟨b, hmem, hcall, hw⟩ := hb
  obtain rfl := hstory.called hmem hcall hw
  exact hstory.admits

theorem Trace.paced_turn (ht : Trace (.start policy clock interval) es m) (hp : m.Paced es)
    (hf : m.frames t = ⟨c, p⟩ :: fs) (hb : CalledFetch es c key ttl) {hs : List Happening}
    {s : Shared} {course : Course Point} (hg : p.Goes m.shared t c hs s course)
    (hgate : ∀ p', course ≠ .gated p') :
    Fetch.Paced c key ttl (lane es t ++ m.shared.tell t c hs) [] fs course.next := by
  have hl := live_of_frames hf
  have hpaced : Fetch.Paced c key ttl (lane es t) [] fs p := hp.stands hf hb
  obtain ⟨op, hstory⟩ := ht.story hl
  obtain ⟨b, hmem, hcall, hw⟩ := hb
  obtain rfl := hstory.called hmem hcall hw
  have hop := hstory.admits
  cases hg with
  | @fetch f _ _ fcourse hfetch =>
    have htale : f.Tale c key ttl (trail es c) := hstory.fetches
    have hdialog : f.Dialog (trail es c) := hstory.converses
    refine hfetch.paced hpaced ?_ ?_ ?_ ?_ ?_
    · rintro f' rfl
      exact hgate _ rfl
    · rintro key' n rfl
      exact htale.1
    · rintro k n rfl
      exact htale.1.key
    · rintro k n x rfl hx ho
      obtain ⟨d, q, k', hq, hflight, hsame⟩ := ht.custody.making hx ho
      have hne : d ≠ c := by
        rintro rfl
        cases ht.account.numbered.point_unique hq hl
        cases hflight
      exact ⟨⟨d, q⟩, (ht.account.numbered.mem_rest hf).2 ⟨hq, hne⟩, k', hflight, hsame⟩
    · rintro a x rfl
      obtain ⟨k, r, hlearn, ho⟩ := hdialog
      obtain ⟨-, y, hy, hw⟩ := hlearn.mem
      cases r with
      | ok v => cases ho
      | error x' =>
        cases ho
        obtain ⟨hmem, hyc⟩ := mem_trail.1 hy
        exact ⟨y, mem_lane.2 ⟨hmem, hstory.thread y hy⟩, hyc, hw⟩
  | _ => cases hop

theorem Makes.calledFetch_of_frames {l : Label} {evs : List Event} {above : List Frame}
    (h : m.Makes l evs m') (ht : Trace (.start policy clock interval) es m)
    (hf : m.frames t = above ++ ⟨c, p⟩ :: fs)
    (hb : CalledFetch (es ++ evs.map (Timed.mk · m.shared.clock)) c key ttl) :
    CalledFetch es c key ttl :=
  h.calledFetch (ht.account.numbered.bound (show m.Live t c p by simp [Live, hf])) hb

theorem Trace.paced_gate (ht : Trace (.start policy clock interval) es m) (hp : m.Paced es)
    (hf : m.frames t = ⟨c, p⟩ :: fs) (hb : CalledFetch es c key ttl) {hs : List Happening}
    {s : Shared} {p' : Point} (hg : p.Goes m.shared t c hs s (.gated p')) (now : Int) :
    Fetch.Paced c key ttl (lane es t ++ [⟨⟨t, m.shared.fresh, .called .sweep⟩, now⟩])
      [⟨m.shared.fresh, Op.start .sweep⟩] fs p' := by
  have hop := ht.admits_of_called (live_of_frames hf) hb
  have hpaced : Fetch.Paced c key ttl (lane es t) [] fs p := hp.stands hf hb
  obtain ⟨key', ttl', n, hn, rfl, rfl⟩ | rfl := hg.gates
  · obtain ⟨rfl, rfl, -, q, b, hls, hc, hw⟩ := hpaced
    have hfollowed : Fetch.Followed c key' ttl' m.shared.fresh
        (lane es t ++ [⟨⟨t, m.shared.fresh, .called .sweep⟩, now⟩]) [] :=
      ⟨hn, by rw [hls, List.append_assoc]; rfl, hc, hw, rfl, rfl⟩
    exact .inl ⟨[], _, _, [], rfl, hfollowed⟩
  · cases hop

theorem Trace.called_fresh (ht : Trace (.start policy clock interval) es m) {op : Op} {now : Int}
    (hb : CalledFetch (es ++ [⟨⟨t, m.shared.fresh, .called op⟩, now⟩]) m.shared.fresh key ttl) :
    op = .fetch key ttl := by
  obtain ⟨b, hb, hc, hw⟩ := hb
  obtain hb | hb := List.mem_append.1 hb
  · exact absurd (ht.account.calls b hb) (hc ▸ Nat.lt_irrefl _)
  · obtain rfl := List.mem_singleton.1 hb
    cases hw
    rfl

theorem Paced.below {ls : List Timed} {pre above : List Frame} {x : Frame} (hp : m.Paced es)
    (hshaped : m.Shaped) (hf : m.frames t = (pre ++ x :: above) ++ ⟨c, p⟩ :: fs)
    (hb : CalledFetch es c key ttl) (pre' : List Frame) (q : Point) :
    Fetch.Paced c key ttl (lane es t ++ ls) (pre' ++ ⟨x.call, q⟩ :: above) fs p := by
  have hpaced := hp.stands hf hb
  have hw : p.waits = true := by
    apply hshaped t ⟨c, p⟩
    rw [hf]
    cases pre <;> simp
  obtain rfl | ⟨frames, g, hg⟩ := above.eq_nil_or_concat
  · exact hpaced.waiting hw q _
  · have split : ∀ l y, l ++ y :: above = (l ++ y :: frames) ++ [g] := by simp [hg]
    rw [split] at hpaced ⊢
    exact hpaced.waiting hw g.point _

theorem Makes.paced_of_stack {l : Label} {evs : List Event} {s : Shared} {stack : List Frame}
    (h : m.Makes l evs ⟨s, m.calls.set t stack⟩)
    (ht : Trace (.start policy clock interval) es m) (hp : m.Paced es)
    (hevs : ∀ e ∈ evs, e.thread = t)
    (hstack : ∀ {above c p fs key ttl}, stack = above ++ ⟨c, p⟩ :: fs →
      CalledFetch (es ++ evs.map (Timed.mk · m.shared.clock)) c key ttl →
      Fetch.Paced c key ttl (lane es t ++ evs.map (Timed.mk · m.shared.clock)) above fs p) :
    Machine.Paced (es ++ evs.map (Timed.mk · m.shared.clock)) ⟨s, m.calls.set t stack⟩ := by
  refine ⟨fun {u above fs c p key ttl} hf hb => ?_⟩
  by_cases hu : u = t
  · subst hu
    rw [frames_mk_set] at hf
    have hnew : ∀ e ∈ evs.map (Timed.mk · m.shared.clock), e.thread = u := by simpa using hevs
    rw [lane_append, lane_eq_self hnew]
    exact hstack hf hb
  · rw [frames_mk_set_of_ne _ _ hu] at hf
    have hnew : ∀ e ∈ evs.map (Timed.mk · m.shared.clock), e.thread ≠ u := by
      simpa using fun e he => (hevs e he).trans_ne (Ne.symm hu)
    rw [lane_append, lane_eq_nil hnew, List.append_nil]
    exact hp.stands hf (h.calledFetch_of_frames ht hf hb)

theorem Makes.paced {l : Label} {evs : List Event} (h : m.Makes l evs m')
    (ht : Trace (.start policy clock interval) es m) (hp : m.Paced es) :
    m'.Paced (es ++ evs.map (Timed.mk · m.shared.clock)) := by
  have hshaped := ht.account.shaped
  have old : ∀ {t above fs c p key ttl}, m.frames t = above ++ ⟨c, p⟩ :: fs →
      CalledFetch (es ++ evs.map (Timed.mk · m.shared.clock)) c key ttl →
      CalledFetch es c key ttl := fun hf hb => h.calledFetch_of_frames ht hf hb
  cases h with
  | advance ns =>
    refine ⟨fun hf hb => ?_⟩
    rw [List.map_nil, List.append_nil] at hb ⊢
    exact hp.stands hf hb
  | @call t op hc =>
    refine (Makes.call hc).paced_of_stack ht hp (by simp) ?_
    intro above c p fs key ttl hf hb
    obtain _ | ⟨f, _ | ⟨g, above⟩⟩ := above
    · cases hf
      obtain rfl := ht.called_fresh hb
      exact ⟨rfl, rfl, rfl, _, _, rfl, rfl, rfl⟩
    · obtain ⟨rfl, hrest⟩ := List.cons.inj hf
      have hrest : m.frames t = [] ++ ⟨c, p⟩ :: fs := hrest
      have hpaced := hp.stands hrest (old hrest hb)
      rw [hrest] at hc
      exact hpaced.asking hc _ _
    · obtain ⟨rfl, hrest⟩ := List.cons.inj hf
      have hrest : m.frames t = ([] ++ g :: above) ++ ⟨c, p⟩ :: fs := hrest
      exact hp.below hshaped hrest (old hrest hb) [_] g.point
  | @turn _ t d q rest hs s course hl hf' hg hgate =>
    refine (Makes.turn hl hf' hg hgate).paced_of_stack ht hp (by simp) ?_
    intro above c p fs key ttl hf hb
    obtain _ | ⟨f, above⟩ := above
    · cases hf
      have hrest : m.frames t = [] ++ ⟨d, q⟩ :: rest := hf'
      simpa [Shared.tell, Function.comp_def] using ht.paced_turn hp hf' (old hrest hb) hg hgate
    · obtain ⟨rfl, rfl⟩ := List.cons.inj hf
      have hrest : m.frames t = ([] ++ ⟨d, q⟩ :: above) ++ ⟨c, p⟩ :: fs := hf'
      exact hp.below hshaped hrest (old hrest hb) [] course.next
  | @gate _ t d q q' rest hl hf' hg =>
    refine (Makes.gate hl hf' hg).paced_of_stack ht hp (by simp) ?_
    intro above c p fs key ttl hf hb
    obtain _ | ⟨f, _ | ⟨g, above⟩⟩ := above
    · cases hf
      cases ht.called_fresh hb
    · obtain ⟨rfl, hrest⟩ := List.cons.inj hf
      cases hrest
      have hrest : m.frames t = [] ++ ⟨d, q⟩ :: rest := hf'
      exact ht.paced_gate hp hf' (old hrest hb) hg _
    · obtain ⟨rfl, hrest⟩ := List.cons.inj hf
      obtain ⟨rfl, rfl⟩ := List.cons.inj hrest
      have hrest : m.frames t = ([] ++ ⟨d, q⟩ :: above) ++ ⟨c, p⟩ :: fs := hf'
      exact hp.below hshaped hrest (old hrest hb) [_] q'
  | @leave t d o rest hf' hok =>
    refine (Makes.leave hf' hok).paced_of_stack ht hp (by simp) ?_
    intro above c p fs key ttl hf hb
    obtain _ | ⟨g, above⟩ := above
    · have hrest : m.frames t = [⟨d, .done o⟩] ++ ⟨c, p⟩ :: fs := by rw [hf', hf]; rfl
      have hw := hshaped.tail hf' ⟨c, p⟩ (by simp [hf])
      have hok : ∀ x, o = .error x → p.ask?.isSome = true := by
        intro x hx
        simpa [hf, mayCall] using hok x hx
      exact (hp.stands hrest (old hrest hb)).returned (e := ⟨⟨t, d, .returned o⟩, _⟩) hw hok rfl
    · have hrest : m.frames t = ([⟨d, .done o⟩] ++ g :: above) ++ ⟨c, p⟩ :: fs := by
        rw [hf', hf]
        rfl
      exact hp.below hshaped hrest (old hrest hb) [] g.point
  | @fail t d f g others hf' hc =>
    refine (Makes.fail hf' hc).paced_of_stack ht hp (by simp) ?_
    intro above c p fs key ttl hf hb
    obtain _ | ⟨g', above⟩ := above
    · cases hf
      have hrest : m.frames t = [⟨d, .done (.error f)⟩] ++ ⟨g.call, g.point⟩ :: others := hf'
      have hb := old hrest hb
      have hop := ht.admits_of_called (show g ∈ m.frames t by simp [hf']) hb
      have hw := hshaped.tail hf' g List.mem_cons_self
      have hw : g.point.awaitsSweep = true := by
        simpa [Point.waits, show g.point.ask?.isSome = false from hc] using hw
      exact (hp.stands hrest hb).failed (e := ⟨⟨t, d, .returned (.error f)⟩, _⟩) hop hw rfl
    · obtain ⟨rfl, rfl⟩ := List.cons.inj hf
      have hrest : m.frames t = ([⟨d, .done (.error f)⟩] ++ g :: above) ++ ⟨c, p⟩ :: fs := hf'
      exact hp.below hshaped hrest (old hrest hb) [] _

end Machine

theorem Run.paced {policy : Policy} {clock interval : Int} {h : List Move} {m : Machine}
    (hr : Run (.start policy clock interval) h m) : m.Paced (chronicle clock h) := by
  induction hr with
  | start => exact ⟨fun hf => by simp at hf⟩
  | @next h m m' l evs hr hl ih =>
    have hclock : m.shared.clock = clockAfter clock h := hr.clock_eq
    rw [chronicle_append, ← hclock]
    exact (Machine.makes_of_next? hl).paced hr.trace ih

end Lapse
