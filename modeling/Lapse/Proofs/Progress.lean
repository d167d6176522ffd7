import Mathlib.Order.WellFoundedSet
import Lapse.Proofs.Moves
import Lapse.Proofs.SingleFlight
import Lapse.Proofs.Waiting

namespace Lapse

/-- A strict order on keys, for which all spellings of a key are alike. -/
structure KeyOrder where
  lt : Key → Key → Prop
  irrefl : ∀ k, ¬lt k k
  trans : ∀ {a b c}, lt a b → lt b c → lt a c
  congr : ∀ {a a' b b' : Key}, a.same a' = true → b.same b' = true → lt a b → lt a' b'

def Fetch.wants? (call : Nat) : Fetch → Option Key
  | .coerce key _ => (key.toKey call).toOption
  | .lookup key _ => (key.toKey call).toOption
  | .register k _ => some k
  | .acquire k _ _ => some k
  | .claim k _ _ => some k
  | .supply k _ _ => some k
  | .insert k _ _ => some k
  | .withdraw k _ _ => some k
  | .release .. => none
  | .again k _ _ => some k

def suppliedIn (fs : List Frame) : List Key :=
  fs.filterMap fun f =>
    match f.point.ask? with
    | some (.supply k) => some k
    | _ => none

theorem mem_suppliedIn {fs : List Frame} {k : Key} :
    k ∈ suppliedIn fs ↔ ∃ f ∈ fs, f.point.ask? = some (.supply k) := by
  simp only [suppliedIn, List.mem_filterMap]
  refine exists_congr fun f => and_congr_right fun _ => ?_
  split <;> simp_all

def Point.wants? (call : Nat) : Point → Option Key
  | .fetch f => f.wants? call
  | _ => none

namespace KeyOrder

def Above (o : KeyOrder) (k : Key) (fs : List Frame) : Prop :=
  (∃ k' ∈ suppliedIn fs, k'.same k = true) ∨ ∀ k' ∈ suppliedIn fs, o.lt k' k

def Admits (o : KeyOrder) (m : Machine) : Label → Prop
  | .call t (.fetch key _) =>
    match key.toKey m.shared.fresh with
    | .ok k => o.Above k (m.frames t)
    | .error _ => True
  | _ => True

def Governs (o : KeyOrder) (start : Machine) (h : List Move) : Prop :=
  Throughout o.Admits start h

def Climbs (o : KeyOrder) : List Frame → Prop
  | [] => True
  | f :: rest => (∀ k, f.point.wants? f.call = some k → o.Above k rest) ∧ o.Climbs rest

end KeyOrder

theorem Point.Goes.wants {s s' : Shared} {t : Tid} {call : Nat} {p : Point} {hs : List Happening}
    {c : Course Point} (h : p.Goes s t call hs s' c) {k : Key} (hk : c.next.wants? call = some k) :
    p.wants? call = some k := by
  cases h with
  | fetch h =>
    cases h with
    | coerced => exact hk
    | missed hkey => exact (congrArg Except.toOption hkey).trans hk
    | created | joined | acquired | claimed | stale | supplied | unsupplied | inserted |
      overwritten | retried => exact hk
    | _ => cases hk
  | erase h => cases h <;> cases hk
  | clear h => cases h <;> cases hk
  | sweep h => cases h <;> cases hk
  | _ => cases hk

namespace Machine

variable {m m' : Machine} {es : List Timed} {t u : Tid} {policy : Policy} {o : KeyOrder}

theorem Makes.climbs {l : Label} {evs : List Event} (h : m.Makes l evs m') (hl : o.Admits m l)
    (hm : ∀ t, o.Climbs (m.frames t)) : ∀ t, o.Climbs (m'.frames t) := by
  have set : ∀ {s : Shared} {t : Tid} {fs : List Frame}, o.Climbs fs →
      ∀ u, o.Climbs (frames ⟨s, m.calls.set t fs⟩ u) := by
    intro s t fs hfs u
    by_cases hu : u = t
    · subst hu
      rwa [frames_mk_set]
    · rw [frames_mk_set_of_ne _ _ hu]
      exact hm u
  have at_top : ∀ {t f rest}, m.frames t = f :: rest → o.Climbs (f :: rest) := by
    intro t f rest hf
    exact hf ▸ hm t
  cases h with
  | advance ns => exact hm
  | @call t op _ =>
    refine set ⟨fun k hk => ?_, hm t⟩
    cases op with
    | fetch key ttl =>
      change (key.toKey m.shared.fresh).toOption = some k at hk
      simp only [KeyOrder.Admits] at hl
      split at hl <;> rename_i hkey <;> rw [hkey] at hk <;> cases hk
      exact hl
    | _ => cases hk
  | turn _ hf hp _ =>
    obtain ⟨hk, hrest⟩ := at_top hf
    exact set ⟨fun k h => hk k (hp.wants h), hrest⟩
  | gate _ hf hp =>
    obtain ⟨hk, hrest⟩ := at_top hf
    exact set ⟨fun k h => (by cases h), fun k h => hk k (hp.wants h), hrest⟩
  | leave hf _ => exact set (at_top hf).2
  | fail hf _ => exact set ⟨fun k h => (by cases h), (at_top hf).2.2⟩

end Machine

theorem Run.climbs {o : KeyOrder} {policy : Policy} {clock interval : Int} {h : List Move}
    {m : Machine} (hr : Run (.start policy clock interval) h m)
    (ho : o.Governs (.start policy clock interval) h) : ∀ t, o.Climbs (m.frames t) := by
  induction hr with
  | start => exact fun t => by simp [KeyOrder.Climbs]
  | next hr hl ih => exact (Machine.makes_of_next? hl).climbs (ho.at_move hr) (ih ho.init)

theorem Run.frames_of_idle {policy : Policy} {clock interval : Int} {h : List Move}
    {m : Machine} {t : Tid} (hr : Run (.start policy clock interval) h m)
    (ht : ∀ mv ∈ h, mv.label.thread? ≠ some t) : m.frames t = [] := by
  induction hr with
  | start => exact Machine.frames_start ..
  | @next g m m' l es _ hl ih =>
    have old := ih fun mv hmv => ht mv (List.mem_append_left _ hmv)
    have hne : l.thread? ≠ some t := ht _ (List.mem_append_right _ List.mem_cons_self)
    have keep : ∀ {s : Shared} {u : Tid} {fs : List Frame}, l.thread? = some u →
        Machine.frames ⟨s, m.calls.set u fs⟩ t = [] := by
      intro s u fs hu
      rw [Machine.frames_mk_set_of_ne, old]
      rintro rfl
      exact hne hu
    cases Machine.makes_of_next? hl with
    | advance ns => exact old
    | call _ => exact keep rfl
    | turn hd _ _ _ => exact keep hd.thread
    | gate hd _ _ => exact keep hd.thread
    | leave _ _ => exact keep rfl
    | fail _ _ => exact keep rfl

namespace Machine

variable {m m' : Machine} {es : List Timed} {t u : Tid} {policy : Policy} {clock interval : Int}
  {o : KeyOrder}

def Before (m : Machine) (t : Tid) (k : Key) : Prop :=
  ∃ c ttl a rest, m.frames t = ⟨c, .fetch (.acquire k ttl a)⟩ :: rest

theorem finite_before (m : Machine) : {k | ∃ t, m.Before t k}.Finite := by
  let key? (f : Frame) : Option Key := f.point.stake?.map (·.1)
  refine ((m.calls.table.flatMap (·.2)).filterMap key?).finite_toSet.subset ?_
  rintro k ⟨t, c, ttl, a, rest, hf⟩
  refine List.mem_filterMap.2 ⟨⟨c, .fetch (.acquire k ttl a)⟩, ?_, rfl⟩
  cases hl : m.calls.table.lookup t with
  | none => simp [frames, Stacks.get, hl] at hf
  | some fs =>
    have hfs : fs = ⟨c, .fetch (.acquire k ttl a)⟩ :: rest := by
      simpa [frames, Stacks.get, hl] using hf
    obtain ⟨pre, post, htable, -⟩ := List.lookup_eq_some_iff.1 hl
    simp [htable, hfs]

theorem Trace.ascends (h : Trace (.start policy clock interval) es m)
    (ho : ∀ t, o.Climbs (m.frames t)) (hw : m.Awaits t u) {k' : Key} (hu : m.Before u k') :
    ∃ k, m.Before t k ∧ o.lt k k' := by
  obtain ⟨hf, hheld⟩ := hw
  obtain ⟨d, q, hq, hg⟩ := h.custody.held hheld
  obtain ⟨c', ttl', a', rest', hf'⟩ := hu
  refine ⟨_, ⟨_, _, _, _, hf⟩, ?_⟩
  have hmem : ⟨d, q⟩ ∈ m.frames u := hq
  rw [hf', List.mem_cons] at hmem
  obtain hmem | hmem := hmem
  · cases hmem
    cases hg
  obtain ⟨k₁, ttl₁, rfl⟩ := supply_of_waits (h.account.shaped.tail hf' _ hmem) hg
  have hsame := h.custody.same hq (live_of_frames hf) rfl rfl
  have habove : o.Above k' rest' := (hf' ▸ ho u).1 k' rfl
  obtain ⟨k₂, hk₂, hs⟩ | hlt := habove
  · obtain ⟨f, hfm, hask⟩ := mem_suppliedIn.1 hk₂
    have := h.apart hf' f hfm k₂ (Point.making_of_supply hask)
    simp [hs] at this
  · exact o.congr hsame (Key.same_refl _) (hlt k₁ (mem_suppliedIn.2 ⟨_, hmem, rfl⟩))

def Ends (m : Machine) (t : Tid) : Prop :=
  ∃ u, Relation.ReflTransGen m.Awaits t u ∧ (m.Inside u ∨ (m.step? u).isSome = true)

theorem Trace.ends (h : Trace (.start policy clock interval) es m)
    (ho : ∀ t, o.Climbs (m.frames t)) (hb : m.Blocked t) : m.Ends t := by
  have : IsStrictOrder Key fun a b => o.lt b a :=
    { irrefl := o.irrefl, trans := fun _ _ _ hab hbc => o.trans hbc hab }
  have hwf := m.finite_before.wellFoundedOn (r := fun a b => o.lt b a)
  obtain ⟨-, hf, -⟩ := blocked_iff.1 hb
  have hk : m.Before t _ := ⟨_, _, _, _, hf⟩
  -- induction on the keys that threads wait for, the greater ones first
  refine hwf.induction (P := fun k => ∀ t, m.Before t k → m.Blocked t → m.Ends t) ⟨t, hk⟩
    (fun k _ ih t ht hb => ?_) t hk hb
  obtain ⟨u, hw⟩ := blocked_iff.1 hb
  have hframes : m.frames u ≠ [] := by
    obtain ⟨-, hl, -⟩ := (h.awaited hw).2
    exact List.ne_nil_of_mem hl
  obtain hbu | hu := stands hframes
  · obtain ⟨v, hwv⟩ := blocked_iff.1 hbu
    obtain ⟨hfu, -⟩ := hwv
    have hbefore : m.Before u _ := ⟨_, _, _, _, hfu⟩
    obtain ⟨k₁, ⟨_, _, _, _, hf₁⟩, hlt⟩ := h.ascends ho hw hbefore
    obtain ⟨_, _, _, _, hf⟩ := ht
    cases hf.symm.trans hf₁
    obtain ⟨w, hchain, hend⟩ := ih _ ⟨u, hbefore⟩ hlt u hbefore hbu
    exact ⟨w, hchain.head hw, hend⟩
  · exact ⟨u, .single hw, hu⟩

theorem Trace.gripped (h : Trace (.start policy clock interval) es m) {a : Nat}
    (hheld : (a, u) ∈ m.shared.held) :
    (∃ c k ttl, m.Live u c (.fetch (.supply k ttl a))) ∨ (m.step? u).isSome = true := by
  obtain ⟨c, q, hq, hg⟩ := h.custody.held hheld
  cases hf : m.frames u with
  | nil => simp [Live, hf] at hq
  | cons f rest =>
    have hmem := hq
    rw [Live, hf, List.mem_cons] at hmem
    obtain rfl | hmem := hmem
    · have hne : m.frames u ≠ [] := by simp [hf]
      obtain hb | ⟨f, rest', hf', hask⟩ | hs := stands hne
      · obtain ⟨v, hf', -⟩ := blocked_iff.1 hb
        cases hf.symm.trans hf'
        cases hg
      · cases hf.symm.trans hf'
        obtain ⟨k, ttl, rfl⟩ := supply_of_waits (by simp [Point.waits, hask]) hg
        exact .inl ⟨c, k, ttl, hq⟩
      · exact .inr hs
    · obtain ⟨k, ttl, rfl⟩ := supply_of_waits (h.account.shaped.tail hf _ hmem) hg
      exact .inl ⟨c, k, ttl, hq⟩

/-- After this label and three steps of the thread at most, the creation is gone and its lock is
free, and whoever stood before the lock can step. -/
def Frees (m : Machine) (t : Tid) (a : Nat) (l : Label) : Prop :=
  ∃ n h m', n ≤ 3 ∧ Run m h m' ∧ h.map (·.label) = l :: .replicate n (.step t) ∧
    (∀ x ∈ m'.shared.pending, x.id ≠ a) ∧ m'.shared.isHeld a = false ∧
    ∀ {u c k ttl rest}, m.frames u = ⟨c, .fetch (.acquire k ttl a)⟩ :: rest →
      (m'.step? u).isSome = true

theorem run_withdraw {c : Nat} {k : Key} {a : Nat} {out : Outcome} {rest : List Frame}
    (hf : m.frames t = ⟨c, .fetch (.withdraw k a out)⟩ :: rest)
    (hp : m.shared.isPending k a = true) : ∃ h m', Run m h m' ∧
      h.map (·.label) = [.step t, .step t] ∧ m'.shared = (m.shared.withdraw a).letGo a ∧
      ∀ u, u ≠ t → m'.frames u = m.frames u := by
  let m₁ : Machine :=
    ⟨m.shared.withdraw a, m.calls.set t (⟨c, .fetch (.release a out)⟩ :: rest)⟩
  have h₁ : m.next? (.step t) = some (m₁, [⟨t, c, .withdrawn k a⟩]) := by
    rw [next?, step?_of_frames hf (by simp), Point.step, Fetch.step, if_pos hp]
    rfl
  let m₂ : Machine := ⟨m₁.shared.letGo a, m₁.calls.set t (⟨c, .done out⟩ :: rest)⟩
  have h₂ : m₁.next? (.step t) = some (m₂, []) := by
    rw [next?, step?_of_frames (frames_mk_set ..) (by simp), Point.step, Fetch.step]
    rfl
  refine ⟨_, m₂, (Run.start.next h₁).next h₂, rfl, rfl, fun u hu => ?_⟩
  rw [frames_mk_set_of_ne _ m₁ hu, frames_mk_set_of_ne _ m hu]

theorem Trace.frees (h : Trace (.start policy clock interval) es m) {c : Nat} {k : Key}
    {ttl : Int} {a : Nat} {rest : List Frame}
    (hf : m.frames t = ⟨c, .fetch (.supply k ttl a)⟩ :: rest) (r : Reply) :
    m.Frees t a (.reply t r) := by
  have hp : m.shared.isPending k a = true := h.account.guarded.pending (live_of_frames hf) rfl
  suffices ∃ n h m', n ≤ 3 ∧ Run m h m' ∧ h.map (·.label) = .reply t r :: .replicate n (.step t) ∧
      (∃ s : Shared, m'.shared = (s.withdraw a).letGo a) ∧
      ∀ u, u ≠ t → m'.frames u = m.frames u by
    obtain ⟨n, g, m', hn, hr, hl, ⟨s, hshared⟩, hframes⟩ := this
    have hheld : m'.shared.isHeld a = false := by
      simp [hshared, Shared.isHeld, Shared.letGo]
    refine ⟨n, g, m', hn, hr, hl, fun x hx => ?_, hheld, fun {u c' k' ttl' rest'} hu => ?_⟩
    · rw [hshared] at hx
      exact (Shared.mem_withdraw.1 hx).2
    · have hne : u ≠ t := by
        rintro rfl
        cases hf.symm.trans hu
      rw [step?_of_frames ((hframes u hne).trans hu) (by simp)]
      simp [Point.step, Fetch.step, hheld]
  cases r with
  | error f =>
    let m₁ : Machine :=
      ⟨m.shared, m.calls.set t (⟨c, .fetch (.withdraw k a (.error f))⟩ :: rest)⟩
    have h₁ : m.next? (.reply t (.error f)) = some (m₁, [⟨t, c, .replied (.error f)⟩]) := by
      simp only [next?, reply?, hf, Point.reply, Fetch.reply]
      rfl
    obtain ⟨g, m', hr, hl, hs, hframes⟩ := run_withdraw (frames_mk_set ..) (m := m₁) hp
    refine ⟨2, _, m', by omega, (Run.start.next h₁).trans hr, by simp [hl], ⟨_, hs⟩, ?_⟩
    exact fun u hu => (hframes u hu).trans (frames_mk_set_of_ne _ m hu _)
  | ok v =>
    let l : Lease := ⟨v, m.shared.clock + ttl⟩
    let m₁ : Machine := ⟨m.shared, m.calls.set t (⟨c, .fetch (.insert k a l)⟩ :: rest)⟩
    have h₁ : m.next? (.reply t (.ok v)) = some (m₁, [⟨t, c, .replied (.ok v)⟩]) := by
      simp only [next?, reply?, hf, Point.reply, Fetch.reply]
      rfl
    let m₂ : Machine := ⟨m.shared.put k l,
      m₁.calls.set t (⟨c, .fetch (.withdraw k a (.ok (.value v)))⟩ :: rest)⟩
    obtain ⟨evs, h₂⟩ : ∃ evs, m₁.next? (.step t) = some (m₂, evs) := by
      rw [next?, step?_of_frames (frames_mk_set ..) (by simp), Point.step, Fetch.step]
      exact ⟨_, rfl⟩
    obtain ⟨g, m', hr, hl, hs, hframes⟩ := run_withdraw (frames_mk_set ..) (m := m₂) hp
    refine ⟨3, _, m', by omega, ((Run.start.next h₁).next h₂).trans hr, by simp [hl],
      ⟨_, hs⟩, fun u hu => ?_⟩
    rw [hframes u hu, frames_mk_set_of_ne _ m₁ hu, frames_mk_set_of_ne _ m hu]

end Machine

/-- Where the only waits are. A thread waits for the maker of its own key, which is another thread
and unfinished; no lock but that of a creation is held while a callback runs; and one thread alone,
or threads that obey an order on keys, never come to wait for one another in a circle. -/
structure Progress (start : Machine) (h : List Move) (es : List Timed) (m : Machine) : Prop where
  waits : ∀ {t}, m.Blocked t →
    ∃ u, u ≠ t ∧ m.Awaits t u ∧ Machine.Kept es m t u ∧ ∀ v, m.Awaits t v → v = u
  gate : ∀ {u}, m.shared.gate = some u → ¬m.Inside u ∧ (m.step? u).isSome = true
  gripped : ∀ {a u}, (a, u) ∈ m.shared.held →
    (∃ c k ttl, m.Live u c (.fetch (.supply k ttl a))) ∨ (m.step? u).isSome = true
  alone : ∀ t, (∀ mv ∈ h, ∀ u, mv.label.thread? = some u → u = t) → ∀ u, ¬m.Blocked u
  ends : ∀ o : KeyOrder, o.Governs start h → ∀ {t}, m.Blocked t → m.Ends t
  moves : ∀ o : KeyOrder, o.Governs start h → (∃ t, m.frames t ≠ []) → (∀ t, ¬m.Inside t) →
    ∃ t, (m.step? t).isSome = true
  frees : ∀ {t c k ttl a rest}, m.frames t = ⟨c, .fetch (.supply k ttl a)⟩ :: rest → ∀ r,
    m.Frees t a (.reply t r)

theorem Run.progress {policy : Policy} {clock interval : Int} {h : List Move} {m : Machine}
    (hr : Run (.start policy clock interval) h m) :
    Progress (.start policy clock interval) h (chronicle clock h) m := by
  have ht := hr.trace
  have ends : ∀ o : KeyOrder, o.Governs (.start policy clock interval) h →
      ∀ {t}, m.Blocked t → m.Ends t := fun o ho _ hb => ht.ends (hr.climbs ho) hb
  constructor
  case waits =>
    intro t hb
    obtain ⟨u, hw⟩ := Machine.blocked_iff.1 hb
    obtain ⟨hne, hkept⟩ := ht.awaited hw
    exact ⟨u, hne, hw, hkept, fun v hv => ht.awaits_unique hv hw⟩
  case gate =>
    intro u hu
    obtain ⟨c, now, rest, hf⟩ := ht.passable hu
    constructor
    · rintro ⟨f, rest', hf', hask⟩
      cases hf.symm.trans hf'
      cases hask
    · rw [Machine.step?_of_frames hf (by simp), Option.isSome_map, Point.step, Option.isSome_map,
        Sweep.step]
      split <;> rfl
  case gripped => exact ht.gripped
  case alone =>
    intro t hall u hb
    obtain ⟨v, hw⟩ := Machine.blocked_iff.1 hb
    obtain ⟨hne, -, hl, -⟩ := ht.awaited hw
    obtain ⟨hf, -⟩ := hw
    -- both threads have calls in progress, so both have moved
    have only : ∀ w, m.frames w ≠ [] → w = t := by
      intro w hw
      by_contra hwt
      exact hw (hr.frames_of_idle fun mv hmv hmw => hwt (hall mv hmv w hmw))
    exact hne ((only v (List.ne_nil_of_mem hl)).trans (only u (by simp [hf])).symm)
  case ends => exact ends
  case moves =>
    rintro o ho ⟨t, hf⟩ hin
    obtain hb | hin' | hs := Machine.stands hf
    · obtain ⟨u, -, hin' | hs⟩ := ends o ho hb
      · exact absurd hin' (hin u)
      · exact ⟨u, hs⟩
    · exact absurd hin' (hin t)
    · exact ⟨t, hs⟩
  case frees => exact ht.frees

namespace KeyOrder

instance (o : KeyOrder) [DecidableRel o.lt] (k : Key) (fs : List Frame) :
    Decidable (o.Above k fs) :=
  inferInstanceAs (Decidable (_ ∨ _))

instance (o : KeyOrder) [DecidableRel o.lt] (m : Machine) : (l : Label) → Decidable (o.Admits m l)
  | .call t (.fetch key _) =>
    match h : key.toKey m.shared.fresh with
    | .ok k => decidable_of_iff (o.Above k (m.frames t)) (by simp [Admits, h])
    | .error _ => isTrue (by simp [Admits, h])
  | .call _ (.erase _) | .call _ .clear | .call _ .sweep | .call _ .size | .call _ .listing
  | .call _ .interval | .call _ (.setInterval _) | .step _ | .reply _ _ | .advance _ =>
    isTrue trivial

def byNumber : KeyOrder where
  lt a b :=
    match a.normal, b.normal with
    | .int i, .int j => i < j
    | _, _ => False
  irrefl k := by
    split
    · simp_all
    · exact id
  trans {a b c} hab hbc := by
    revert hab hbc
    cases a.normal <;> cases b.normal <;> cases c.normal <;> simp
    exact Int.lt_trans
  congr {a a' b b'} ha hb := by
    rw [Key.same_iff.1 ha, Key.same_iff.1 hb]
    exact id

instance : DecidableRel byNumber.lt := fun a b => by
  simp only [byNumber]
  split <;> infer_instance

end KeyOrder

def stairs : List Label :=
  List.flatten [
    [.call 0 (.fetch (.int 3) (.int 5))], .replicate 8 (.step 0),
    [.call 1 (.fetch (.int 2) (.int 5))], .replicate 8 (.step 1),
    [.call 1 (.fetch (.int 3) (.int 5))], .replicate 6 (.step 1),
    [.call 2 (.fetch (.int 2) (.int 5))], .replicate 6 (.step 2)]

theorem progress_stairs :
    ∃ h m, Run (.start ⟨false, false⟩ 0 10) h m ∧
      Progress (.start ⟨false, false⟩ 0 10) h (chronicle 0 h) m ∧
      KeyOrder.byNumber.Governs (.start ⟨false, false⟩ 0 10) h ∧ m.Blocked 1 ∧ m.Blocked 2 :=
  ⟨_, _, .perform _ stairs, (Run.perform _ stairs).progress,
    Throughout.perform (by decide +kernel),
    ⟨by decide +kernel, Option.isNone_iff_eq_none.1 (by decide +kernel)⟩,
    by decide +kernel, Option.isNone_iff_eq_none.1 (by decide +kernel)⟩

end Lapse
