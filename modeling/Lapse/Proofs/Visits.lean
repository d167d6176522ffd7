import Lapse.Proofs.Countdown
import Lapse.Proofs.Rounds

namespace Lapse

namespace Sweep

/-- What becomes of a deleted value: it is disposed of, if there is an action for that. An ordinary
fault of the action is logged, once, and nothing else comes of it. The key named there is the one
that the pass listed: where an equal key was made anew before its turn, its spelling can differ. -/
inductive Discards (policy : Policy) (k : Key) (r : Record) :
    List Timed → Except Fault Bool → Prop
  | dropped : policy.disposes = false → Discards policy k r [] (.ok true)
  | disposed {a u : Timed} {v : Value} : policy.disposes = true →
    a.what = .asked (.dispose r.value) → u.what = .replied (.ok v) →
    Discards policy k r [a, u] (.ok true)
  | isolated {a u g : Timed} {f : Fault} : policy.disposes = true →
    a.what = .asked (.dispose r.value) → u.what = .replied (.error f) → f.isOrdinary = true →
    g.what = .logged (.disposalFailed k f) → Discards policy k r [a, u, g] (.ok true)
  | undisposed {a u : Timed} {f : Fault} : policy.disposes = true →
    a.what = .asked (.dispose r.value) → u.what = .replied (.error f) → f.isOrdinary = false →
    Discards policy k r [a, u] (.error f)

inductive Handles (policy : Policy) (k : Key) :
    Option Record → List Timed → Except Fault Bool → Prop
  | absent : Handles policy k none [] (.ok false)
  | live {r : Record} {y : Timed} : y.what = .judged k r y.clock → y.clock ≤ r.deadline →
    Handles policy k (some r) [y] (.ok false)
  | declined {r : Record} {y z u : Timed} {v : Value} : policy.checks = true →
    y.what = .judged k r y.clock → r.deadline < y.clock → z.what = .asked (.check r.value) →
    u.what = .replied (.ok v) → v.isTrue = false → Handles policy k (some r) [y, z, u] (.ok false)
  | unapproved {r : Record} {y z u : Timed} {f : Fault} : policy.checks = true →
    y.what = .judged k r y.clock → r.deadline < y.clock → z.what = .asked (.check r.value) →
    u.what = .replied (.error f) → Handles policy k (some r) [y, z, u] (.error f)
  | deleted {r : Record} {l l' : List Timed} {d : Timed} {x : Except Fault Bool} :
    Judged policy.checks k r l → d.what = .deleted k r → Discards policy k r l' x →
    Handles policy k (some r) (l ++ d :: l') x

/-- A pass sees what is left under a key and handles it; or the record that it saw was due to be
deleted, and is no longer there. -/
inductive Visit (policy : Policy) (c : Nat) : Visiting Bool
  | handled {es b : List Timed} {k : Key} {x : Timed} {o : Option Record}
    {v : Except Fault Bool} : x.call = c → x.what = .examined k o → Left es k o →
    Handles policy k o (trail b c) v → Visit policy c es k (x :: b) v
  | saved {es b : List Timed} {k : Key} {x : Timed} {r : Record} {o : Option Record} :
    x.call = c → x.what = .examined k (some r) → Left es k (some r) →
    Judged policy.checks k r (trail b c) → Left (es ++ x :: b) k o →
    o.map (·.stamp) ≠ some r.stamp → Visit policy c es k (x :: b) (.ok false)

inductive Ends (rs : List (Key × Bool)) : List Happening → Outcome → Prop
  | idle : rs.countP (·.2) = 0 → Ends rs [] (.ok (.count 0))
  | swept {n : Nat} : rs.countP (·.2) = n + 1 →
    Ends rs [.logged (.swept (n + 1))] (.ok (.count (n + 1)))

def Tour (policy : Policy) (c : Nat) (es : List Timed) (o : Option Outcome) : Prop :=
  ∃ now q, Round (Visit policy c) Ends c [.called .sweep, .passed now] q es o

def circuit (policy : Policy) (c : Nat) : Circuit Bool Nat where
  begins shown := ∃ now, shown = [.called .sweep, .passed now]
  visit := Visit policy c
  finds k r := .examined k (some r)
  ends := Ends
  tally rs := rs.countP (·.2)
  add _ a n := n + a.toNat
  tally_concat rs k a := by cases a <;> simp

def Tours (policy : Policy) (c : Nat) (es : List Timed) : Sweep → Prop
  | snapshot => ∃ now, (trail es c).map (·.what) = [.called .sweep, .passed now]
  | scan p => (circuit policy c).Between c p.todo p.removed es
  | judge p k r => (circuit policy c).At c p.todo p.removed k r es []
  | approval p k r => policy.checks = true ∧ ∃ y z,
    (circuit policy c).At c p.todo p.removed k r es [y, z] ∧ y.what = .judged k r y.clock ∧
      r.deadline < y.clock ∧ z.what = .asked (.check r.value)
  | settle p k r => ∃ l, (circuit policy c).At c p.todo p.removed k r es l ∧
    Judged policy.checks k r l
  | discard p k r => ∃ l d, (circuit policy c).At c p.todo p.removed k r es (l ++ [d]) ∧
    Judged policy.checks k r l ∧ d.what = .deleted k r
  | disposal p k r => policy.disposes = true ∧ ∃ l d a,
    (circuit policy c).At c p.todo p.removed k r es (l ++ [d, a]) ∧
      Judged policy.checks k r l ∧ d.what = .deleted k r ∧ a.what = .asked (.dispose r.value)
  | _ => (trail es c).map (·.what) = [.called .sweep]

variable {policy : Policy} {c n : Nat} {todo : List Key} {k : Key} {r : Record}
  {es l : List Timed} {o : Option Outcome}

theorem tour_iff : (circuit policy c).Tour c es o ↔ Tour policy c es o := by
  constructor
  · rintro ⟨_, q, ⟨now, rfl⟩, h⟩
    exact ⟨now, q, h⟩
  · rintro ⟨now, q, h⟩
    exact ⟨_, q, ⟨now, rfl⟩, h⟩

theorem Handles.handles {v : Except Fault Bool} (h : Handles policy k (some r) l v) :
    (circuit policy c).Handles c k r l v :=
  fun _ _ _ hr hx hw hl => .handled hx hw hr (hl ▸ h)

theorem saved {s : Store} (h : (circuit policy c).At c todo n k r es l)
    (hj : Judged policy.checks k r l) (hs : Store.Replays .empty es s)
    (hne : (s.find? k).map (·.stamp) ≠ some r.stamp) : (circuit policy c).Between c todo n es := by
  obtain ⟨rfl, hb, hr, hx, hw, rfl⟩ := h
  exact hb.visit (.saved hx hw hr hj ⟨s, hs, rfl⟩ hne)

theorem ne_passed (h : (trail es c).map (·.what) = [.called .sweep]) {e : Timed}
    (he : e ∈ trail es c) (now : Int) : e.what ≠ .passed now := by
  intro hw
  have hmem : e.what ∈ (trail es c).map (·.what) := List.mem_map_of_mem he
  simp [h, hw] at hmem

end Sweep

namespace Point

def Tours (policy : Policy) (c : Nat) (es : List Timed) : Point → Prop
  | .sweep w => w.Tours policy c es
  | .done o =>
    (Sweep.circuit policy c).Tour c es (some o) ∨ ∀ e ∈ trail es c, ∀ now, e.what ≠ .passed now
  | _ => True

end Point

theorem Sweep.Goes.tours {policy : Policy} {s s' : Shared} {t : Tid} {c : Nat} {es : List Timed}
    {w : Sweep} {hs : List Happening} {course : Course Sweep} (h : w.Goes s t hs s' course)
    (hp : s.policy = policy) (hr : Store.Replays .empty es s.store) (ht : w.Tours policy c es) :
    (course.map .sweep).next.Tours policy c (es ++ s.tell t c hs) := by
  have shown : ∀ hs, trail (es ++ s.tell t c hs) c = trail es c ++ s.tell t c hs := by
    intro hs
    rw [trail_append, trail_tell]
  cases h with
  | early | barred | forestalled =>
    refine .inr fun e he now => ne_passed ht ?_ now
    rwa [shown, Shared.tell, List.map_nil, List.append_nil] at he
  | begun | ripe | entered =>
    have ht : (trail es c).map (·.what) = [.called .sweep] := ht
    simp only [Point.Tours, Course.map, Course.next_go, Tours, shown]
    simpa [Shared.tell] using ht
  | @passed now _ =>
    have ht : (trail es c).map (·.what) = [.called .sweep] := ht
    refine ⟨now, ?_⟩
    rw [shown, List.map_append, ht]
    rfl
  | listed =>
    obtain ⟨now, ht⟩ := ht
    have hl : Listed c [.called .sweep, .passed now] es s.store.keys :=
      ⟨ht, ⟨_, hr, rfl⟩, hr.distinct .empty⟩
    exact (Circuit.Between.start (K := circuit policy c) ⟨now, rfl⟩ hl).others
      (by simp [Shared.tell])
  | idle =>
    refine .inl (ht.over fun rs hn => ?_)
    rw [trail_tell]
    exact .idle hn
  | swept =>
    refine .inl (ht.over fun rs hn => ?_)
    rw [trail_tell]
    exact .swept hn
  | @gone k todo n hf =>
    have hv : Handles policy k none (trail [] c) (.ok false) := .absent
    exact Circuit.Between.visit ht (.handled rfl rfl ⟨_, hr, hf⟩ hv)
  | examined hf => exact ht.found ⟨_, hr, hf⟩ rfl rfl
  | @live p k r he =>
    have he : s.clock ≤ r.deadline := by simpa [Lease.expired] using he
    exact (ht.tell s t [.judged k r s.clock]).next (Handles.live rfl he).handles
  | checks he hc =>
    exact ⟨hp ▸ hc, _, _, ht.tell s t _, rfl, by simpa [Lease.expired] using he, rfl⟩
  | approves he hc =>
    exact ⟨_, ht.tell s t _, .unchecked (hp ▸ hc) rfl (by simpa [Lease.expired] using he)⟩
  | approved hv =>
    obtain ⟨hc, y, z, ha, hy, hlt, hz⟩ := ht
    exact ⟨_, ha.tell s t _, .checked hc hy hlt hz rfl hv⟩
  | @declined p k r v hv =>
    obtain ⟨hc, y, z, ha, hy, hlt, hz⟩ := ht
    exact (ha.tell s t [.replied (.ok v)]).next (Handles.declined hc hy hlt hz rfl hv).handles
  | unapproved f =>
    obtain ⟨hc, y, z, ha, hy, hlt, hz⟩ := ht
    exact .inl ((ha.tell s t [.replied (.error f)]).cut
      (Handles.unapproved hc hy hlt hz rfl).handles)
  | @saved p k r hk =>
    obtain ⟨l, ha, hj⟩ := ht
    have hne : (s.store.find? k).map (·.stamp) ≠ some r.stamp := by
      intro he
      obtain ⟨r', hr', hs'⟩ := Option.map_eq_some_iff.1 he
      simp [Shared.isStored, hr', hs'] at hk
    exact (Sweep.saved ha hj hr hne).others (by simp [Shared.tell])
  | deleted =>
    obtain ⟨l, ha, hj⟩ := ht
    exact ⟨l, _, ha.tell s t _, hj, rfl⟩
  | @disposes p k r hd =>
    obtain ⟨l, d, ha, hj, hw⟩ := ht
    have hasked := ha.tell s t [.asked (.dispose r.value)]
    rw [List.append_assoc] at hasked
    exact ⟨hp ▸ hd, l, d, _, hasked, hj, hw, rfl⟩
  | @dropped p k r hd =>
    obtain ⟨l, d, ha, hj, hw⟩ := ht
    have hv : Handles policy k (some r) (l ++ [d] ++ s.tell t c []) (.ok true) := by
      simpa [Shared.tell] using .deleted hj hw (.dropped (hp ▸ hd))
    exact (ha.tell s t []).next hv.handles
  | @disposed p k r v =>
    obtain ⟨hd, l, d, a, ha, hj, hw, hask⟩ := ht
    have hv : Handles policy k (some r) (l ++ [d, a] ++ s.tell t c [.replied (.ok v)])
        (.ok true) := by
      simpa [Shared.tell] using .deleted hj hw (.disposed hd hask rfl)
    exact (ha.tell s t _).next hv.handles
  | @isolated p k r f hf =>
    obtain ⟨hd, l, d, a, ha, hj, hw, hask⟩ := ht
    have hv : Handles policy k (some r) (l ++ [d, a] ++
        s.tell t c [.replied (.error f), .logged (.disposalFailed k f)]) (.ok true) := by
      simpa [Shared.tell] using .deleted hj hw (.isolated hd hask rfl hf rfl)
    exact (ha.tell s t _).next hv.handles
  | @undisposed p k r f hf =>
    obtain ⟨hd, l, d, a, ha, hj, hw, hask⟩ := ht
    have hv : Handles policy k (some r) (l ++ [d, a] ++ s.tell t c [.replied (.error f)])
        (.error f) := by
      simpa [Shared.tell] using .deleted hj hw (.undisposed hd hask rfl hf)
    exact .inl ((ha.tell s t _).cut hv.handles)

theorem Machine.Story.tours {policy : Policy} {t : Tid} {c : Nat} {es : List Timed} {p : Point}
    (h : Story policy t c .sweep es p) : p.Tours policy c es := by
  induction h with
  | @call m es ha hc =>
    subst hc
    show (trail _ _).map _ = _
    rw [trail_append, ha.trail_fresh, trail_tell]
    rfl
  | @turn m es p hs s course h ha hl hp ih =>
    have hop := h.admits
    cases hp with
    | sweep hw => exact hw.tours ha.policy ha.replays ih
    | _ => cases hop
  | @fail es p f h hw _ =>
    have hop := h.admits
    cases p with
    | sweep | done => cases hw
    | _ => cases hop
  | @others es es' p _ ho ih =>
    have same : trail (es ++ es') c = trail es c := by
      rw [trail_append, trail_eq_nil ho, List.append_nil]
    cases p with
    | sweep w =>
      cases w with
      | scan p => exact ih.others ho
      | judge p k r => exact ih.others ho
      | approval p k r =>
        obtain ⟨hc, y, z, ha, h⟩ := ih
        exact ⟨hc, y, z, ha.others ho, h⟩
      | settle p k r =>
        obtain ⟨l, ha, h⟩ := ih
        exact ⟨l, ha.others ho, h⟩
      | discard p k r =>
        obtain ⟨l, d, ha, h⟩ := ih
        exact ⟨l, d, ha.others ho, h⟩
      | disposal p k r =>
        obtain ⟨hd, l, d, a, ha, h⟩ := ih
        exact ⟨hd, l, d, a, ha.others ho, h⟩
      | _ =>
        simp only [Point.Tours, Sweep.Tours, same] at ih ⊢
        exact ih
    | done o =>
      simp only [Point.Tours, same] at ih ⊢
      exact ih.imp_left fun h => h.others ho
    | _ => trivial

namespace Sweep

variable {policy : Policy} {c : Nat} {es : List Timed}

theorem Tours.tour {w : Sweep} {s : Store} (h : w.Tours policy c es)
    (hs : Store.Replays .empty es s) {y : Timed} (hy : y ∈ trail es c) {now : Int}
    (hw : y.what = .passed now) : (circuit policy c).Tour c es none := by
  -- how the visit might go on from here
  let own (x : Happening) (now : Int) : Timed := ⟨⟨0, c, x⟩, now⟩
  have discards : ∀ k r, ∃ l v, (∀ e ∈ l, e.call = c) ∧ Discards policy k r l v := by
    intro k r
    cases hd : policy.disposes with
    | false => exact ⟨[], _, by simp, .dropped hd⟩
    | true =>
      exact ⟨[own (.asked (.dispose r.value)) 0, own (.replied (.ok .null)) 0], _, by simp [own],
        .disposed hd rfl rfl⟩
  cases w with
  | snapshot =>
    obtain ⟨now, h⟩ := h
    have hl : Listed c [.called .sweep, .passed now] es s.keys :=
      ⟨h, ⟨s, hs, rfl⟩, hs.distinct .empty⟩
    exact (Circuit.Between.start (K := circuit policy c) ⟨now, rfl⟩ hl).tour
  | scan p => exact Circuit.Between.tour h
  | judge p k r =>
    exact h.visiting [own (.judged k r r.deadline) r.deadline] (by simp [own])
      (Handles.live rfl (Int.le_refl _)).handles
  | approval p k r =>
    obtain ⟨hc, y, z, ha, hy, hlt, hz⟩ := h
    exact ha.visiting [own (.replied (.error .cancelled)) 0] (by simp [own])
      (Handles.unapproved hc hy hlt hz rfl).handles
  | settle p k r =>
    obtain ⟨l, ha, hj⟩ := h
    obtain ⟨l', v, hl', hd⟩ := discards k r
    exact ha.visiting (own (.deleted k r) 0 :: l') (by simpa [own] using hl')
      (Handles.deleted hj rfl hd).handles
  | discard p k r =>
    obtain ⟨l, d, ha, hj, hw⟩ := h
    obtain ⟨l', v, hl', hd⟩ := discards k r
    have hv : Handles policy k (some r) (l ++ [d] ++ l') v := by simpa using .deleted hj hw hd
    exact ha.visiting l' hl' hv.handles
  | disposal p k r =>
    obtain ⟨hp, l, d, a, ha, hj, hw, hask⟩ := h
    have hv : Handles policy k (some r) (l ++ [d, a] ++ [own (.replied (.ok .null)) 0])
        (.ok true) := by simpa using .deleted hj hw (.disposed hp hask rfl)
    exact ha.visiting _ (by simp [own]) hv.handles
  | _ => exact absurd hw (ne_passed h hy now)

/-- The call is on its round, or about to return what the round came to, or it has returned that
and shows nothing since. -/
inductive Accounted (policy : Policy) (es : List Timed) (m : Machine) (c : Nat) : Prop
  | progress {t : Tid} {p : Point} : m.Live t c p → Tour policy c es p.outcome? →
    Accounted policy es m c
  | returned {pre post : List Timed} {e : Timed} {o : Outcome} : es = pre ++ e :: post →
    e.call = c → e.what = .returned o → Tour policy c pre (some o) → (∀ x ∈ post, x.call ≠ c) →
    Accounted policy es m c

end Sweep

theorem Point.Goes.sweep_of_passed {s s' : Shared} {t : Tid} {c : Nat} {p : Point}
    {hs : List Happening} {course : Course Point} (h : p.Goes s t c hs s' course) {now : Int}
    (hn : .passed now ∈ hs) : ∃ w, p = .sweep w := by
  cases h with
  | @sweep w => exact ⟨w, rfl⟩
  | fetch h => cases h <;> simp at hn
  | erase h => cases h <;> simp at hn
  | clear h => cases h <;> simp at hn
  | _ => simp at hn

namespace Machine

variable {policy : Policy} {clock interval : Int} {m : Machine} {pre es : List Timed} {t : Tid}
  {c : Nat} {p : Point} {y : Timed} {now : Int}

theorem Origin.passing (h : Origin policy pre y) (hy : y.what = .passed now) :
    ∃ b ∈ pre, b.call = y.call ∧ b.what = .called .sweep := by
  cases h with
  | called op he => simp [hy] at he
  | returned o he => simp [hy] at he
  | @turn m es op p s course hs hs' hstory _ _ hp _ hpre =>
    have hmem : .passed now ∈ hs ++ y.what :: hs' := by simp [hy]
    obtain ⟨w, rfl⟩ := hp.sweep_of_passed hmem
    have hop := hstory.admits
    obtain ⟨b, hb, hc, hw⟩ := hstory.mem_called
    cases op with
    | sweep =>
      rw [hpre]
      exact ⟨b, List.mem_append_left _ hb, hc, hw⟩
    | _ => cases hop

theorem Story.tour (h : Story policy t c .sweep es p) {s : Store}
    (hs : Store.Replays .empty es s) (hy : y ∈ trail es c) (hw : y.what = .passed now) :
    Sweep.Tour policy c es p.outcome? := by
  have hop := h.admits
  have htours := h.tours
  cases p with
  | sweep w => exact Sweep.tour_iff.1 (htours.tour hs hy hw)
  | done o =>
    obtain h | h := htours
    · exact Sweep.tour_iff.1 h
    · exact absurd hw (h y hy now)
  | _ => cases hop

end Machine

/-- In every run, whatever the callbacks and other threads do, each pass goes round the keys that it
listed, and returns its deletions or the fault that ended it. -/
theorem Run.accounted {policy : Policy} {clock interval : Int} {h : List Move} {m : Machine}
    (hr : Run (.start policy clock interval) h m) :
    ∀ y ∈ chronicle clock h, ∀ now, y.what = .passed now →
      Sweep.Accounted policy (chronicle clock h) m y.call := by
  intro y hy now hw
  have ht := hr.trace
  obtain ⟨p, q, hes⟩ := List.append_of_mem hy
  obtain ⟨b, hb, hc, hbw⟩ := (ht.origin hes).passing hw
  have hb : b ∈ chronicle clock h := by
    rw [hes]
    exact List.mem_append_left _ hb
  rw [← hc]
  cases ht.fate hb hbw with
  | progress hl hstory =>
    exact .progress hl (hstory.tour ht.account.replays (mem_trail.2 ⟨hy, hc.symm⟩) hw)
  | @returned pre post e o he _ hec hew hstory hover =>
    have hrep := ht.account.replays
    have hpre : y ∈ pre := by
      rw [he] at hy
      obtain hy | hy := List.mem_append.1 hy
      · exact hy
      obtain rfl | hy := List.mem_cons.1 hy
      · simp [hw] at hew
      · exact absurd hc.symm (hover y hy)
    rw [he] at hrep
    obtain ⟨s, hs, -⟩ := hrep.split
    exact .returned he hec hew (hstory.tour hs (mem_trail.2 ⟨hpre, hc.symm⟩) hw) hover

/-- A pass over four keys. The first disposal fails; the second predicate has its key renewed and
the third key removed; the fourth predicate fails. -/
def disturbed : List Label :=
  List.flatten [
    [1, 2, 3, 4].flatMap fun i => List.flatten [
      [.call 0 (.fetch (.int i) (.int 5))], .replicate 12 (.step 0),
      [.reply 0 (.ok (.int i))], .replicate 4 (.step 0)],
    [.advance 20, .call 0 .sweep], .replicate 7 (.step 0),
    [.reply 0 (.ok (.bool true))], .replicate 2 (.step 0),
    [.reply 0 (.error (.raised .boom ""))], .replicate 2 (.step 0),
    [.call 0 (.fetch (.int 2) (.int 5))], .replicate 6 (.step 0),
    [.call 0 (.erase (.int 3))], .replicate 2 (.step 0),
    [.reply 0 (.ok .null)], .replicate 6 (.step 0),
    [.reply 0 (.ok (.bool true))], .replicate 4 (.step 0),
    [.reply 0 (.error (.raised .fatal ""))], .replicate 1 (.step 0)]

theorem accounted_disturbed :
    ∃ h m, Run (.start ⟨true, true⟩ 0 10) h m ∧
      (∀ y ∈ chronicle 0 h, ∀ now, y.what = .passed now →
        Sweep.Accounted ⟨true, true⟩ (chronicle 0 h) m y.call) ∧
      (chronicle 0 h).countP (·.what.passed?.isSome) = 1 ∧
      (keysExamined (chronicle 0 h)).length = 4 ∧ m.shared.store.size = 2 :=
  ⟨_, _, .perform _ disturbed, (Run.perform _ disturbed).accounted, by decide +kernel,
    by decide +kernel, by decide +kernel⟩

end Lapse
