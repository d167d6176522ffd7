import Lapse.Proofs.Fetching

namespace Lapse

def keysExamined (l : List Timed) : List Key :=
  l.filterMap fun e =>
    match e.what with
    | .examined k _ => some k
    | _ => none

theorem keysExamined_append (l l' : List Timed) :
    keysExamined (l ++ l') = keysExamined l ++ keysExamined l' :=
  List.filterMap_append

inductive Sighted (c : Nat) (k : Key) (r : Record) (es l : List Timed) : Prop
  | intro {a b : List Timed} {x : Timed} {s : Store} : es = a ++ x :: b → x.call = c →
    x.what = .examined k r → Store.Replays .empty a s → s.find? k = some r → trail b c = l →
    Sighted c k r es l

theorem Sighted.append {c : Nat} {k : Key} {r : Record} {es l : List Timed}
    (h : Sighted c k r es l) (es' : List Timed) : Sighted c k r (es ++ es') (l ++ trail es' c) := by
  obtain ⟨rfl, hx, hw, hs, hr, rfl⟩ := h
  exact ⟨by simp, hx, hw, hs, hr, trail_append ..⟩

namespace Sweep

/-- A pass has begun, and what it has yet to look at is not what it looked at. -/
structure Passing (l : List Timed) (todo : List Key) : Prop where
  passed : ∃ e ∈ l, ∃ now, e.what = .passed now
  apart : (keysExamined l ++ todo).Pairwise fun a b => a.same b = false

inductive Judged (checks : Bool) (k : Key) (r : Record) : List Timed → Prop
  | unchecked {y : Timed} : checks = false → y.what = .judged k r y.clock →
    r.deadline < y.clock → Judged checks k r [y]
  | checked {y z u : Timed} {v : Value} : checks = true → y.what = .judged k r y.clock →
    r.deadline < y.clock → z.what = .asked (.check r.value) → u.what = .replied (.ok v) →
    v.isTrue = true → Judged checks k r [y, z, u]

def Tale (checks : Bool) (c : Nat) (es : List Timed) : Sweep → Prop
  | begin => keysExamined (trail es c) = []
  | due _ => keysExamined (trail es c) = []
  | contend _ => keysExamined (trail es c) = []
  | recheck _ => keysExamined (trail es c) = []
  | snapshot => Passing (trail es c) [] ∧ keysExamined (trail es c) = []
  | scan p => Passing (trail es c) p.todo
  | judge p k r => Passing (trail es c) p.todo ∧ Sighted c k r es []
  | approval p k r => Passing (trail es c) p.todo ∧ checks = true ∧
    ∃ y z, Sighted c k r es [y, z] ∧ y.what = .judged k r y.clock ∧ r.deadline < y.clock ∧
      z.what = .asked (.check r.value)
  | settle p k r => Passing (trail es c) p.todo ∧ ∃ l, Sighted c k r es l ∧ Judged checks k r l
  | discard p _ _ => Passing (trail es c) p.todo
  | disposal p _ _ => Passing (trail es c) p.todo

theorem Passing.append {l l' : List Timed} {todo : List Key} (h : Passing l todo)
    (hl : keysExamined l' = []) : Passing (l ++ l') todo where
  passed := by
    obtain ⟨e, he, hw⟩ := h.passed
    exact ⟨e, List.mem_append_left _ he, hw⟩
  apart := by
    rw [keysExamined_append, hl, List.append_nil]
    exact h.apart

theorem Passing.examine {l : List Timed} {k : Key} {todo : List Key} {e : Timed}
    {o : Option Record} (h : Passing l (k :: todo)) (he : e.what = .examined k o) :
    Passing (l ++ [e]) todo where
  passed := by
    obtain ⟨e, he, hw⟩ := h.passed
    exact ⟨e, List.mem_append_left _ he, hw⟩
  apart := by
    have : keysExamined [e] = [k] := by simp [keysExamined, he]
    rw [keysExamined_append, this, List.append_assoc]
    exact h.apart

end Sweep

namespace Point

def Sweeps (checks : Bool) (c : Nat) (es : List Timed) : Point → Prop
  | .sweep w => w.Tale checks c es
  | _ => True

end Point

theorem Sweep.Goes.tale {s s' : Shared} {t : Tid} {c : Nat} {es : List Timed} {w : Sweep}
    {hs : List Happening} {course : Course Sweep} (h : w.Goes s t hs s' course)
    (hr : Store.Replays .empty es s.store) (ht : w.Tale s.policy.checks c es) :
    (course.map .sweep).next.Sweeps s.policy.checks c (es ++ s.tell t c hs) := by
  have keep : ∀ {hs todo}, Passing (trail es c) todo → keysExamined (s.tell t c hs) = [] →
      Passing (trail (es ++ s.tell t c hs) c) todo := by
    intro hs todo hp he
    rw [trail_append, trail_tell]
    exact hp.append he
  have sight : ∀ {hs l k r}, Sighted c k r es l →
      Sighted c k r (es ++ s.tell t c hs) (l ++ s.tell t c hs) := by
    intro hs l k r hl
    have := hl.append (s.tell t c hs)
    rwa [trail_tell] at this
  cases h with
  | early | barred | forestalled | idle | swept | unapproved | undisposed => trivial
  | begun | ripe | entered =>
    have ht : keysExamined (trail es c) = [] := ht
    simpa [Point.Sweeps, Course.map, Tale, Shared.tell] using ht
  | @passed now _ =>
    have ht : keysExamined (trail es c) = [] := ht
    have he : keysExamined (trail (es ++ s.tell t c [.passed now]) c) = [] := by
      rw [trail_append, trail_tell, keysExamined_append, ht]
      rfl
    refine ⟨⟨⟨⟨⟨t, c, .passed now⟩, s.clock⟩, ?_, now, rfl⟩, ?_⟩, he⟩
    · exact mem_trail.2 ⟨List.mem_append_right _ List.mem_cons_self, rfl⟩
    · simp [he]
  | listed =>
    obtain ⟨hp, he⟩ := ht
    have hd : s.store.Distinct := hr.distinct .empty
    refine keep ⟨hp.passed, ?_⟩ rfl
    rwa [he]
  | gone _ =>
    have ht : Passing (trail es c) _ := ht
    simp only [Point.Sweeps, Course.map, Course.next, Tale, trail_append, trail_tell]
    exact ht.examine rfl
  | @examined k todo n r hf =>
    have ht : Passing (trail es c) _ := ht
    refine ⟨?_, .intro rfl rfl rfl hr hf rfl⟩
    rw [trail_append, trail_tell]
    exact ht.examine rfl
  | live => exact keep ht.1 rfl
  | checks he hc =>
    obtain ⟨hp, hl⟩ := ht
    exact ⟨keep hp rfl, hc, _, _, sight hl, rfl, by simpa [Lease.expired] using he, rfl⟩
  | approves he hc =>
    obtain ⟨hp, hl⟩ := ht
    exact ⟨keep hp rfl, _, sight hl, .unchecked hc rfl (by simpa [Lease.expired] using he)⟩
  | approved hv =>
    obtain ⟨hp, hc, y, z, hl, hy, hlt, hz⟩ := ht
    exact ⟨keep hp rfl, _, sight hl, .checked hc hy hlt hz rfl hv⟩
  | declined => exact keep ht.1 rfl
  | saved => exact keep ht.1 rfl
  | deleted => exact keep ht.1 rfl
  | disposes | dropped | disposed | isolated => exact keep ht rfl

theorem Machine.Story.sweeps {policy : Policy} {t : Tid} {c : Nat} {es : List Timed} {p : Point}
    (h : Story policy t c .sweep es p) : p.Sweeps policy.checks c es := by
  induction h with
  | @call m es ha hc =>
    subst hc
    simp only [Op.start, Point.Sweeps, Sweep.Tale, trail_append, ha.trail_fresh, trail_tell]
    rfl
  | @turn m es p hs s course h ha hl hp ih =>
    have hop := h.admits
    rw [← ha.policy] at ih ⊢
    cases hp with
    | sweep hw => exact hw.tale ha.replays ih
    | _ => cases hop
  | fail => trivial
  | @others es es' p _ ho ih =>
    have same : trail (es ++ es') c = trail es c := by
      rw [trail_append, trail_eq_nil ho, List.append_nil]
    have sight : ∀ {k r l}, Sighted c k r es l → Sighted c k r (es ++ es') l := by
      intro k r l hl
      have := hl.append es'
      rwa [trail_eq_nil ho, List.append_nil] at this
    cases p with
    | sweep w =>
      cases w with
      | judge p k r =>
        obtain ⟨hp, hl⟩ := ih
        exact ⟨same ▸ hp, sight hl⟩
      | approval p k r =>
        obtain ⟨hp, hc, y, z, hl, h⟩ := ih
        exact ⟨same ▸ hp, hc, y, z, sight hl, h⟩
      | settle p k r =>
        obtain ⟨hp, l, hl, h⟩ := ih
        exact ⟨same ▸ hp, l, sight hl, h⟩
      | _ =>
        simp only [Point.Sweeps, Sweep.Tale, same] at ih ⊢
        exact ih
    | _ => trivial

theorem Sweep.Goes.deletes {s s' : Shared} {t : Tid} {w : Sweep} {hs : List Happening}
    {course : Course Sweep} (h : w.Goes s t hs s' course) {k : Key} {r : Record}
    (hd : .deleted k r ∈ hs) : hs = [.deleted k r] ∧ ∃ p, w = .settle p k r := by
  cases h with
  | deleted =>
    obtain ⟨rfl, rfl⟩ : k = _ ∧ r = _ := by simpa using hd
    exact ⟨rfl, _, rfl⟩
  | _ => simp at hd

namespace Machine

variable {policy : Policy} {pre : List Timed} {d : Timed} {k : Key} {r : Record}

theorem Story.sweep_deletes {t : Tid} {c : Nat} {es : List Timed} {p : Point} {s s' : Shared}
    {hs : List Happening} {course : Course Point} (h : Story policy t c .sweep es p)
    (hp : p.Goes s t c hs s' course) (hd : .deleted k r ∈ hs) :
    hs = [.deleted k r] ∧ ∃ todo l, Sweep.Passing (trail es c) todo ∧ Sighted c k r es l ∧
      Sweep.Judged policy.checks k r l := by
  have hop := h.admits
  cases hp with
  | sweep hg =>
    obtain ⟨hone, q, rfl⟩ := hg.deletes hd
    obtain ⟨hpass, l, hs, hj⟩ := h.sweeps
    exact ⟨hone, q.todo, l, hpass, hs, hj⟩
  | _ => cases hop

theorem Origin.sweeps (h : Origin policy pre d) (hd : d.what = .deleted k r) {b : Timed}
    (hb : b ∈ pre) (hc : b.call = d.call) (hw : b.what = .called .sweep) :
    ∃ todo l, Sweep.Passing (trail pre d.call) todo ∧ Sighted d.call k r pre l ∧
      Sweep.Judged policy.checks k r l := by
  cases h with
  | called op he => simp [hd] at he
  | returned o he => simp [hd] at he
  | @turn m es op p s course hs hs' hstory ha hl hp hclock hpre =>
    have old : b ∈ es := by
      rw [hpre] at hb
      obtain hb | hb := List.mem_append.1 hb
      · exact hb
      · obtain ⟨x, hx, rfl⟩ := List.mem_map.1 hb
        cases hw
        exact absurd (List.mem_append_left _ hx) (hp.inner.1 _)
    obtain rfl := hstory.called old hc hw
    have hmem : .deleted k r ∈ hs ++ d.what :: hs' := by simp [hd]
    obtain ⟨hone, h⟩ := hstory.sweep_deletes hp hmem
    obtain ⟨rfl, -⟩ := append_cons_eq_singleton hone
    rw [Shared.tell, List.map_nil, List.append_nil] at hpre
    rwa [hpre]

end Machine

inductive Removes (es : List Timed) (c : Nat) : Prop
  | erase {b : Timed} (key : Value) : b ∈ es → b.call = c → b.what = .called (.erase key) →
    Removes es c
  | clear {b : Timed} : b ∈ es → b.call = c → b.what = .called .clear → Removes es c
  | sweep {b y : Timed} (now : Int) : b ∈ es → b.call = c → b.what = .called .sweep → y ∈ es →
    y.call = c → y.what = .passed now → Removes es c

theorem Removes.append {es : List Timed} {c : Nat} (h : Removes es c) (es' : List Timed) :
    Removes (es ++ es') c := by
  cases h with
  | erase key hb hc hw => exact .erase key (List.mem_append_left _ hb) hc hw
  | clear hb hc hw => exact .clear (List.mem_append_left _ hb) hc hw
  | sweep now hb hc hw hy hyc hyw =>
    exact .sweep now (List.mem_append_left _ hb) hc hw (List.mem_append_left _ hy) hyc hyw

theorem Machine.Story.removes {policy : Policy} {t : Tid} {c : Nat} {op : Op} {es : List Timed}
    {p : Point} {s s' : Shared} {hs : List Happening} {course : Course Point}
    (h : Story policy t c op es p) (hp : p.Goes s t c hs s' course) {k : Key} {r : Record}
    (hd : .deleted k r ∈ hs) : Removes es c := by
  have hop := h.admits
  obtain ⟨b, hb, hc, hw⟩ := h.mem_called
  cases op with
  | erase key => exact .erase key hb hc hw
  | clear => exact .clear hb hc hw
  | sweep =>
    obtain ⟨-, todo, l, hpass, -⟩ := h.sweep_deletes hp hd
    obtain ⟨y, hy, now, hyw⟩ := hpass.passed
    obtain ⟨hy, hyc⟩ := mem_trail.1 hy
    exact .sweep now hb hc hw hy hyc hyw
  | fetch =>
    cases hp with
    | fetch hg => cases hg <;> simp at hd
    | _ => cases hop
  | _ =>
    cases hp with
    | fetch | erase | clear | sweep => cases hop
    | _ => simp at hd

theorem Machine.Origin.removes {policy : Policy} {pre : List Timed} {d : Timed} {k : Key}
    {r : Record} (h : Origin policy pre d) (hd : d.what = .deleted k r) : Removes pre d.call := by
  cases h with
  | called op he => simp [hd] at he
  | returned o he => simp [hd] at he
  | turn hs hs' hstory _ _ hp _ hpre =>
    have hmem : .deleted k r ∈ hs ++ d.what :: hs' := by simp [hd]
    rw [hpre]
    exact (hstory.removes hp hmem).append _

end Lapse
