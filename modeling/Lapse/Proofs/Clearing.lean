import Lapse.Proofs.Chart
import Lapse.Proofs.Moves
import Lapse.Proofs.Residence
import Lapse.Proofs.Rounds

namespace Lapse

/-- Nothing is left of what the store held at the end of `q`. -/
structure Emptied (q es : List Timed) : Prop where
  ended : ∀ {i : Nat} {k : Key} {v : Value}, i < q.length → InsertedAt es i k v →
    ∃ j, Residence es i j k v
  inserted : ∀ {s : Store}, Store.Replays .empty es s → ∀ e ∈ s.entries,
    ∃ i, q.length ≤ i ∧ InsertedAt es i e.key e.record.value ∧
      ∀ j, ¬ Residence es i j e.key e.record.value
  empty : (∀ e ∈ es.drop q.length, e.what.isInsertion = false) → Store.Replays .empty es .empty

def Vacated (q es : List Timed) : Prop := ∀ k, ∃ a b, es = q ++ a ++ b ∧ Left (q ++ a) k none

theorem Left.congr {es : List Timed} {k k' : Key} {o : Option Record} (h : Left es k o)
    (hk : k.same k' = true) : Left es k' o := by
  obtain ⟨s, hs, ho⟩ := h
  exact ⟨s, hs, s.find?_congr hk ▸ ho⟩

theorem Vacated.born {q es : List Timed} {s : Store} {k : Key} {r : Record} (h : Vacated q es)
    (hs : Store.Replays .empty es s) (hr : s.find? k = some r) :
    ∃ i, q.length ≤ i ∧ InsertedAt es i k r.value ∧
      ∀ x e, i < x → es[x]? = some e → e.what.deletes k = false := by
  obtain ⟨a, b, rfl, s₁, h₁, hn⟩ := h k
  obtain ⟨s₁', h₁', hs⟩ := hs.split
  obtain rfl := h₁.unique h₁'
  obtain ⟨p, e, p', k', r₀, rfl, hw, hk, hv, hno⟩ := hs.born hn hr
  have hmid : ((q ++ a ++ p) ++ e :: p')[(q ++ a ++ p).length]? = some e := getElem?_middle ..
  refine ⟨(q ++ a ++ p).length, by simp, ⟨e, k', r₀, ?_, hw, hk, hv⟩, ?_⟩
  · rwa [List.append_assoc (q ++ a)] at hmid
  · intro x d hx hd
    rw [← List.append_assoc (q ++ a)] at hd
    exact (hno d (getElem?_after hx hd)).2

theorem Vacated.emptied {q es : List Timed} {s : Store} (h : Vacated q es)
    (hs : Store.Replays .empty es s) : Emptied q es where
  ended {i k v} hi hins := by
    obtain ⟨j, hj, -⟩ | ⟨⟨r, hr, -⟩, hno⟩ := residence_of_inserted hs hins
    · exact ⟨j, hj⟩
    · -- what is there now was inserted later
      obtain ⟨i', hi', hins', -⟩ := h.born hs hr
      obtain ⟨e, he, hk⟩ := hins'.inserts
      simp [(hno i' e (by omega) he).1] at hk
  inserted {s'} hs' e he := by
    obtain rfl := hs.unique hs'
    obtain ⟨i, hi, hins, hno⟩ := h.born hs ((hs.distinct .empty).find?_of_mem he)
    refine ⟨i, hi, hins, fun j hj => ?_⟩
    obtain ⟨d, hd, hk⟩ := hj.ends.deletes
    simp [hno j d hj.before hd] at hk
  empty hno := by
    obtain ⟨entries⟩ := s
    cases entries with
    | nil => exact hs
    | cons e rest =>
      have hr : Store.find? ⟨e :: rest⟩ e.key = some e.record := by simp [Store.find?]
      obtain ⟨i, hi, ⟨x, k', r, hx, hw, -⟩, -⟩ := h.born hs hr
      obtain ⟨n, rfl⟩ := Nat.exists_eq_add_of_le hi
      have := hno x (List.mem_of_getElem? (List.getElem?_drop.trans hx))
      simp [hw, Happening.isInsertion] at this

namespace Clear

/-- What becomes of a deleted value: it is disposed of, if there is an action for that. An ordinary
fault of the action is gathered. -/
inductive Discards (policy : Policy) (r : Record) :
    List Timed → Except Fault (Option Fault) → Prop
  | dropped : policy.disposes = false → Discards policy r [] (.ok none)
  | disposed {a u : Timed} {v : Value} : policy.disposes = true →
    a.what = .asked (.dispose r.value) → u.what = .replied (.ok v) →
    Discards policy r [a, u] (.ok none)
  | gathered {a u : Timed} {f : Fault} : policy.disposes = true →
    a.what = .asked (.dispose r.value) → u.what = .replied (.error f) → f.isOrdinary = true →
    Discards policy r [a, u] (.ok (some f))
  | undisposed {a u : Timed} {f : Fault} : policy.disposes = true →
    a.what = .asked (.dispose r.value) → u.what = .replied (.error f) → f.isOrdinary = false →
    Discards policy r [a, u] (.error f)

inductive Visit (policy : Policy) (c : Nat) : Visiting (Option Fault)
  | absent {es : List Timed} {k : Key} : Left es k none → Visit policy c es k [] (.ok none)
  | deleted {es b : List Timed} {k : Key} {d : Timed} {r : Record}
    {v : Except Fault (Option Fault)} : Left es k (some r) → d.call = c → d.what = .deleted k r →
    Discards policy r (trail b c) v → Visit policy c es k (d :: b) v

/-- The faults of the disposals, each with its key as the call listed it: the spelling of an equal
key that was made anew before its turn can differ. -/
def failures (rs : List (Key × Option Fault)) : List (Value × Fault) :=
  rs.filterMap fun (k, g) => g.map (k.toValue, ·)

inductive Ends (rs : List (Key × Option Fault)) : List Happening → Outcome → Prop
  | cleared : failures rs = [] → Ends rs [] (.ok .unit)
  | failed : failures rs ≠ [] → Ends rs [] (.error (.disposal (failures rs)))

def Tour (policy : Policy) (c : Nat) (q es : List Timed) (o : Option Outcome) : Prop :=
  Round (Visit policy c) Ends c [.called .clear] q es o

def circuit (policy : Policy) (c : Nat) : Circuit (Option Fault) (List (Value × Fault)) where
  begins shown := shown = [.called .clear]
  visit := Visit policy c
  finds k r := .deleted k r
  ends := Ends
  tally := failures
  add k g xs := xs ++ (g.map (k.toValue, ·)).toList
  tally_concat rs k g := by
    rw [failures, failures, List.filterMap_append]
    cases g <;> rfl

def Tours (policy : Policy) (c : Nat) (es : List Timed) : Clear → Prop
  | snapshot => (trail es c).map (·.what) = [.called .clear]
  | scan p => (circuit policy c).Between c p.todo p.failures es
  | discard p k r => (circuit policy c).At c p.todo p.failures k r es []
  | disposal p k r => policy.disposes = true ∧ ∃ a,
    (circuit policy c).At c p.todo p.failures k r es [a] ∧ a.what = .asked (.dispose r.value)

variable {policy : Policy} {c : Nat} {k : Key} {r : Record} {es l : List Timed} {o : Option Outcome}

theorem add_none (xs : List (Value × Fault)) : (circuit policy c).add k none xs = xs :=
  List.append_nil xs

theorem tour_iff : (circuit policy c).Tour c es o ↔ ∃ q, Tour policy c q es o := by
  constructor
  · rintro ⟨_, q, rfl, h⟩
    exact ⟨q, h⟩
  · rintro ⟨q, h⟩
    exact ⟨_, q, rfl, h⟩

theorem Discards.handles {v : Except Fault (Option Fault)} (h : Discards policy r l v) :
    (circuit policy c).Handles c k r l v :=
  fun _ _ _ hr hd hw hl => .deleted hr hd hw (hl ▸ h)

end Clear

namespace Point

def Clears (policy : Policy) (c : Nat) (es : List Timed) : Point → Prop
  | .clear e => e.Tours policy c es
  | .done o => (Clear.circuit policy c).Tour c es (some o)
  | _ => True

end Point

theorem Clear.Goes.tours {policy : Policy} {s s' : Shared} {t : Tid} {c : Nat} {es : List Timed}
    {e : Clear} {hs : List Happening} {course : Course Clear} (h : e.Goes s hs s' course)
    (hp : s.policy = policy) (hr : Store.Replays .empty es s.store) (ht : e.Tours policy c es) :
    (course.map .clear).next.Clears policy c (es ++ s.tell t c hs) := by
  cases h with
  | listed =>
    have hl : Listed c [.called .clear] es s.store.keys := ⟨ht, ⟨_, hr, rfl⟩, hr.distinct .empty⟩
    exact (Circuit.Between.start rfl hl).others (by simp [Shared.tell])
  | cleared =>
    refine ht.over fun rs hf => ?_
    rw [trail_tell]
    exact .cleared hf
  | failed hne =>
    refine ht.over fun rs hf => ?_
    obtain rfl : failures rs = _ := hf
    rw [trail_tell]
    exact .failed hne
  | @gone k todo xs hf =>
    have hgone := Circuit.Between.visit ht (.absent ⟨_, hr, hf⟩)
    rw [add_none] at hgone
    exact hgone
  | popped hf => exact ht.found ⟨_, hr, hf⟩ rfl rfl
  | disposes hd => exact ⟨hp ▸ hd, _, ht.tell s t _, rfl⟩
  | @dropped p k r hd =>
    have hnext := (ht.tell s t []).next (Discards.dropped (hp ▸ hd)).handles
    rw [add_none] at hnext
    exact hnext
  | @disposed p k r v =>
    obtain ⟨hd, a, ha, hw⟩ := ht
    have hnext := (ha.tell s t [.replied (.ok v)]).next (Discards.disposed hd hw rfl).handles
    rw [add_none] at hnext
    exact hnext
  | @gathered p k r f hf =>
    obtain ⟨hd, a, ha, hw⟩ := ht
    exact (ha.tell s t [.replied (.error f)]).next (Discards.gathered hd hw rfl hf).handles
  | @undisposed p k r f hf =>
    obtain ⟨hd, a, ha, hw⟩ := ht
    exact (ha.tell s t [.replied (.error f)]).cut (Discards.undisposed hd hw rfl hf).handles

namespace Machine

theorem Story.clears {policy : Policy} {t : Tid} {c : Nat} {es : List Timed} {p : Point}
    (h : Story policy t c .clear es p) : p.Clears policy c es := by
  induction h with
  | @call m es ha hc =>
    subst hc
    show (trail _ _).map _ = _
    rw [trail_append, ha.trail_fresh, trail_tell]
    rfl
  | @turn m es p hs s course h ha hl hp ih =>
    have hop := h.admits
    cases hp with
    | clear he => exact he.tours ha.policy ha.replays ih
    | _ => cases hop
  | @fail es p f h hw _ =>
    have hop := h.admits
    cases p with
    | clear | done => cases hw
    | _ => cases hop
  | @others es es' p _ ho ih =>
    have same : trail (es ++ es') c = trail es c := by
      rw [trail_append, trail_eq_nil ho, List.append_nil]
    cases p with
    | clear e =>
      cases e with
      | snapshot =>
        simp only [Point.Clears, Clear.Tours, same] at ih ⊢
        exact ih
      | scan p => exact ih.others ho
      | discard p k r => exact ih.others ho
      | disposal p k r =>
        obtain ⟨hd, a, ha, hw⟩ := ih
        exact ⟨hd, a, ha.others ho, hw⟩
    | done o => exact ih.others ho
    | _ => trivial

end Machine

namespace Clear

variable {policy : Policy} {c : Nat} {q es : List Timed} {k : Key} {s : Store} {o : Outcome}

theorem Tours.tour {e : Clear} (h : e.Tours policy c es) (hs : Store.Replays .empty es s) :
    (circuit policy c).Tour c es none := by
  -- how the visit might go on from here
  let own (x : Happening) : Timed := ⟨⟨0, c, x⟩, 0⟩
  cases e with
  | snapshot =>
    have hl : Listed c [.called .clear] es s.keys := ⟨h, ⟨s, hs, rfl⟩, hs.distinct .empty⟩
    exact (Circuit.Between.start rfl hl).tour
  | scan p => exact Circuit.Between.tour h
  | discard p k r =>
    cases hd : policy.disposes with
    | false => exact h.visiting [] (by simp) (Discards.dropped hd).handles
    | true =>
      exact h.visiting [own (.asked (.dispose r.value)), own (.replied (.ok .null))]
        (by simp [own]) (Discards.disposed hd rfl rfl).handles
  | disposal p k r =>
    obtain ⟨hd, a, ha, hw⟩ := h
    exact ha.visiting [own (.replied (.ok .null))] (by simp [own])
      (Discards.disposed hd hw rfl).handles

theorem Visit.vacates {b : List Timed} {v : Except Fault (Option Fault)}
    (h : Visit policy c es k b v) : ∃ b₁ b₂, b = b₁ ++ b₂ ∧ Left (es ++ b₁) k none := by
  cases h with
  | absent hn => exact ⟨[], [], rfl, by simpa using hn⟩
  | @deleted _ b _ d r _ hr _ hw _ =>
    obtain ⟨s, hs, hr⟩ := hr
    have hd : Store.Replays s [d] (s.erase k) := .cons (hw ▸ .deleted hr) .nil
    exact ⟨[d], b, rfl, _, hs.append hd, by simp [Store.find?_erase]⟩

theorem vacates_of_walk {rs : List (Key × Option Fault)} (h : Walk (Visit policy c) c q rs es) :
    ∃ a, es = q ++ a ∧ ∀ k ∈ rs.map (·.1), ∃ a₁ a₂, a = a₁ ++ a₂ ∧ Left (q ++ a₁) k none := by
  induction h with
  | start => exact ⟨[], by simp, by simp⟩
  | @visit rs _ b k g _ hv ih =>
    obtain ⟨a, rfl, hall⟩ := ih
    obtain ⟨b₁, b₂, rfl, hleft⟩ := hv.vacates
    refine ⟨a ++ (b₁ ++ b₂), by simp, ?_⟩
    intro k' hk
    rw [List.map_append, List.mem_append] at hk
    obtain hk | hk := hk
    · obtain ⟨a₁, a₂, rfl, h⟩ := hall k' hk
      exact ⟨a₁, a₂ ++ (b₁ ++ b₂), by simp, h⟩
    · obtain rfl : k' = k := by simpa using hk
      exact ⟨a ++ b₁, b₂, by simp, by simpa using hleft⟩
  | @others _ _ es' _ _ ih =>
    obtain ⟨a, rfl, hall⟩ := ih
    refine ⟨a ++ es', by simp, ?_⟩
    intro k hk
    obtain ⟨a₁, a₂, rfl, h⟩ := hall k hk
    exact ⟨a₁, a₂ ++ es', by simp, h⟩

theorem Discards.fatal {r : Record} {l : List Timed} {f : Fault}
    (h : Discards policy r l (.error f)) :
    ∃ u ∈ l, u.what = .replied (.error f) ∧ f.isOrdinary = false := by
  cases h with
  | @undisposed a u _ _ _ hu hf => exact ⟨u, by simp, hu, hf⟩

theorem Tour.emptied (h : Tour policy c q es (some o)) (hs : Store.Replays .empty es s)
    (ho : ∀ u ∈ trail es c, ∀ f, u.what = .replied (.error f) → f.isOrdinary = true) :
    Emptied q es := by
  cases h with
  | @complete _ b _ _ hl hw he _ =>
    obtain ⟨a, rfl, hall⟩ := vacates_of_walk hw
    obtain ⟨s₁, h₁, hkeys⟩ := hl.keys
    refine Vacated.emptied (fun k => ?_) hs
    cases hk : s₁.contains k with
    | false =>
      exact ⟨[], a ++ b, by simp [he], s₁, by simpa using h₁, Store.find?_eq_none_iff.2 hk⟩
    | true =>
      obtain ⟨k', hk', hsame⟩ := (s₁.contains_iff k).1 hk
      obtain ⟨a₁, a₂, rfl, hleft⟩ := hall k' (hkeys ▸ hk')
      exact ⟨a₁, a₂ ++ b, by simp [he], hleft.congr hsame⟩
  | @cut _ b b' _ _ _ f _ _ he hv _ =>
    cases hv with
    | @deleted _ b _ d _ _ _ hc _ hd =>
      obtain ⟨u, hmem, hu, hf⟩ := hd.fatal
      obtain ⟨hmem, huc⟩ := mem_trail.1 hmem
      have := ho u (mem_trail.2 ⟨by simp [he, hmem], huc⟩) f hu
      simp [hf] at this

/-- The call is on its round, or about to return what the round came to, or it has returned that
and shows nothing since. Its own turns leave the gate of sweeps alone. -/
inductive Accounted (policy : Policy) (es : List Timed) (m : Machine) (c : Nat) : Prop
  | progress {q : List Timed} {t : Tid} {p : Point} : m.Live t c p →
    Tour policy c q es p.outcome? →
    (∀ {l m' evs rest}, m.frames t = ⟨c, p⟩ :: rest → l.Drives t →
      m.next? l = some (m', evs) → m'.shared.due = m.shared.due ∧
        m'.shared.interval = m.shared.interval) → Accounted policy es m c
  | returned {q pre post : List Timed} {e : Timed} {o : Outcome} : es = pre ++ e :: post →
    e.call = c → e.what = .returned o → Tour policy c q pre (some o) →
    ((∀ u ∈ trail pre c, ∀ f, u.what = .replied (.error f) → f.isOrdinary = true) →
      Emptied q pre) → (∀ x ∈ post, x.call ≠ c) → Accounted policy es m c

theorem Goes.ungated {s s' : Shared} {e : Clear} {hs : List Happening} {course : Course Clear}
    (h : e.Goes s hs s' course) : s'.due = s.due ∧ s'.interval = s.interval := by
  cases h <;> exact ⟨rfl, rfl⟩

end Clear

namespace Machine

variable {policy : Policy} {m m' : Machine} {es : List Timed} {t : Tid} {c : Nat} {p : Point}
  {rest : List Frame} {l : Label} {evs : List Event}

theorem Story.ungated (h : Story policy t c .clear es p) (hf : m.frames t = ⟨c, p⟩ :: rest)
    (hl : l.Drives t) (hn : m.next? l = some (m', evs)) :
    m'.shared.due = m.shared.due ∧ m'.shared.interval = m.shared.interval := by
  have hop := h.admits
  cases makes_of_next? hn with
  | turn hd hf' hp _ =>
    obtain rfl := Option.some.inj (hl.thread.symm.trans hd.thread)
    cases hf.symm.trans hf'
    cases hp with
    | clear hg => exact hg.ungated
    | _ => cases hop
  | _ => exact ⟨rfl, rfl⟩

end Machine

/-- In every run, whatever the disposal actions and other threads do, each clearing goes round the
keys that it listed; unless a disposal ends it, it leaves nothing of what it found. -/
theorem Run.cleared {policy : Policy} {clock interval : Int} {h : List Move} {m : Machine}
    (hr : Run (.start policy clock interval) h m) :
    ∀ b ∈ chronicle clock h, b.what = .called .clear →
      Clear.Accounted policy (chronicle clock h) m b.call := by
  intro b hb hw
  have ht := hr.trace
  cases ht.fate hb hw with
  | @progress p hl hstory =>
    have htour : ∃ q, Clear.Tour policy b.call q (chronicle clock h) p.outcome? := by
      have hop := hstory.admits
      have hclears := hstory.clears
      cases p with
      | clear e => exact Clear.tour_iff.1 (hclears.tour ht.account.replays)
      | done o => exact Clear.tour_iff.1 hclears
      | _ => cases hop
    obtain ⟨q, htour⟩ := htour
    exact .progress hl htour fun hf hd hn => hstory.ungated hf hd hn
  | @returned pre post e o he _ hc hew hstory hover =>
    have hrep := ht.account.replays
    rw [he] at hrep
    obtain ⟨s, hs, -⟩ := hrep.split
    obtain ⟨q, htour⟩ := Clear.tour_iff.1 hstory.clears
    exact .returned he hc hew htour (htour.emptied hs) hover

/-- The first disposal makes the deleted key anew, erases the second key, and fails. -/
def meddled : List Label :=
  List.flatten [
    [1, 2, 3].flatMap fun i => List.flatten [
      [.call 0 (.fetch (.int i) (.int 5))], .replicate 12 (.step 0),
      [.reply 0 (.ok (.int i))], .replicate 4 (.step 0)],
    [.call 0 .clear], .replicate 3 (.step 0),
    [.call 0 (.fetch (.int 1) (.int 5))], .replicate 12 (.step 0),
    [.reply 0 (.ok (.int 4))], .replicate 4 (.step 0),
    [.call 0 (.erase (.int 2))], .replicate 2 (.step 0),
    [.reply 0 (.ok .null)], .replicate 6 (.step 0),
    [.reply 0 (.error (.raised .boom ""))], .replicate 3 (.step 0),
    [.reply 0 (.ok .null)], .replicate 2 (.step 0)]

theorem cleared_meddled :
    ∃ h m, Run (.start ⟨false, true⟩ 0 10) h m ∧
      (∀ b ∈ chronicle 0 h, b.what = .called .clear →
        Clear.Accounted ⟨false, true⟩ (chronicle 0 h) m b.call) ∧
      (chronicle 0 h).countP (·.what.isDeletion) = 3 ∧ m.shared.store.size = 1 ∧
      ((chronicle 0 h).filterMap (·.what.returned?)).countP (!·.isOk) = 1 :=
  ⟨_, _, .perform _ meddled, (Run.perform _ meddled).cleared, by decide +kernel,
    by decide +kernel, by decide +kernel⟩

end Lapse
