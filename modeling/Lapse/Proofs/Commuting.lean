import Lapse.Proofs.Chart
import Lapse.Proofs.Contest
import Lapse.Proofs.Schedule
import Lapse.Proofs.Spelling

/-!
Independent jobs commute. Jobs on keys that are all different come to the same in whatever order
they are done, one after the other or on any threads with their turns interleaved, as long as no
sweep is due: each to what it comes to by itself.
-/

namespace Lapse

structure Schedule (jobs : List Job) (disposal : Value → Reply) (who : Nat → Job) (m₀ : Machine)
    (h : List Move) (m : Machine) : Prop where
  run : Run m₀ h m
  does : Throughout (Label.Does who disposal) m₀ h
  all : ((started (chronicle m₀.shared.clock h)).map who).Perm jobs
  idle : ∀ t, m.frames t = []

def Job.Unequal (i j : Job) : Prop :=
  ∀ k k', i.key.toKey 0 = .ok k → j.key.toKey 0 = .ok k' → ¬k.Equal k'

theorem Job.Unequal.symm {i j : Job} (h : i.Unequal j) : j.Unequal i :=
  fun k k' hk hk' heq => h k' k hk' hk heq.symm

/-- No two keys are equal, and what is removed can be hashed: anything else is refused only where
the store holds something, so another job can decide that. -/
structure Independent (jobs : List Job) : Prop where
  keyed : ∀ key, .erase key ∈ jobs → ∃ k, key.toKey 0 = .ok k
  unequal : jobs.Pairwise Job.Unequal

theorem Value.toKey_eq_ok {source : Nat} {v : Value} {k : Key} :
    v.toKey source = .ok k ↔ Key.ofValue source v = .ok k := by
  simp only [toKey]
  cases Key.ofValue source v <;> simp

theorem Value.map_toValue_toKey (source source' : Nat) (v : Value) :
    (v.toKey source).map Key.toValue = (v.toKey source').map Key.toValue := by
  have h := Key.map_toValue_ofValue source source' v
  unfold toKey
  cases hk : Key.ofValue source v <;> cases hk' : Key.ofValue source' v <;>
    simp_all [Except.map]

theorem Value.toKey_of_toKey {source : Nat} {v : Value} {k : Key} (h : v.toKey source = .ok k)
    (source' : Nat) : ∃ k', v.toKey source' = .ok k' ∧ k'.toValue = k.toValue ∧
      (k.isProper = true → k' = k) := by
  rw [toKey_eq_ok] at h
  have hmap := Key.map_toValue_ofValue source source' v
  cases hk' : Key.ofValue source' v with
  | error what => simp [h, hk', Except.map] at hmap
  | ok k' =>
    refine ⟨k', toKey_eq_ok.2 hk', ?_, fun hk => ?_⟩
    · simpa [h, hk', Except.map] using hmap.symm
    · exact Except.ok.inj (hk'.symm.trans (Key.ofValue_of_isProper h hk source'))

theorem Value.equal_of_same {c d : Nat} {v w : Value} {k k' : Key} (hne : c ≠ d)
    (hk : v.toKey c = .ok k) (hk' : w.toKey d = .ok k') (h : k.same k' = true) : k.Equal k' := by
  rw [toKey_eq_ok] at hk hk'
  exact (Key.same_iff_equal (Key.isProper_of_same hne hk hk' h)
    (Key.isProper_of_same hne.symm hk' hk (Key.same_symm h))).1 h

theorem Independent.apart {jobs : List Job} (h : Independent jobs) {who : Nat → Job}
    {cs : List Nat} (hcs : (cs.map who).Perm jobs) : Apart who cs where
  keyed c hc key hkey := by
    obtain ⟨k, hk⟩ := h.keyed key (hcs.subset (List.mem_map.2 ⟨c, hc, hkey⟩))
    obtain ⟨k', hk', -⟩ := Value.toKey_of_toKey hk c
    exact ⟨k', hk'⟩
  apart c hc d hd hne k k' hk hk' := by
    have hsymm : Std.Symm fun c d => (who c).Unequal (who d) := ⟨fun _ _ h => h.symm⟩
    have hunequal : cs.Pairwise fun c d => (who c).Unequal (who d) :=
      List.pairwise_map.1 ((hcs.pairwise_iff Job.Unequal.symm).2 h.unequal)
    have hcd := hunequal.forall hc hd hne
    refine Bool.eq_false_iff.2 fun hsame => ?_
    have heq := Value.equal_of_same hne hk hk' hsame
    obtain ⟨k₀, hk₀, -, hk₀eq⟩ := Value.toKey_of_toKey hk 0
    obtain ⟨k₁, hk₁, -, hk₁eq⟩ := Value.toKey_of_toKey hk' 0
    rw [hk₀eq heq.isProper.1] at hk₀
    rw [hk₁eq heq.isProper.2] at hk₁
    exact hcd k k' hk₀ hk₁ heq

namespace Job

variable (s₀ : Shared) (disposal : Value → Reply)

def shown (j : Job) : Except Fault Value := (j.key.toKey 0).map Key.toValue

def before (j : Job) : Option Lease := s₀.leaseOf (j.key.toKey s₀.fresh)

def result (j : Job) : Upshot :=
  j.upshot ⟨s₀.policy, s₀.clock, disposal⟩ j.shown (j.before s₀)

def concerns (k : Key) (j : Job) : Bool := (j.key.toKey s₀.fresh).toOption.any (·.same k)

def arrival (j : Job) : Option (Value × Lease) :=
  if (j.before s₀).isSome then none
  else j.shown.toOption.bind fun k => (j.result s₀ disposal).lease.map (k, ·)

end Job

def Entry.view (e : Entry) : Value × Lease := (e.key.toValue, e.record.toLease)

def remains (s₀ : Shared) (disposal : Value → Reply) (jobs : List Job) (k : Key) : Option Lease :=
  match jobs.find? (·.concerns s₀ k) with
  | some j => (j.result s₀ disposal).lease
  | none => s₀.lease? k

structure Settled (s₀ : Shared) (disposal : Value → Reply) (jobs : List Job) (who : Nat → Job)
    (es : List Timed) (s : Store) : Prop where
  outcomes : ((started es).map fun c => (who c, outcomes es c)).Perm
    (jobs.map fun j => (j, [(j.result s₀ disposal).outcome]))
  requests : (requests es).Perm (jobs.flatMap fun j => (j.result s₀ disposal).requests)
  entries : ∃ kept new, s.entries = kept ++ new ∧ (kept.map (·.key)).Sublist s₀.store.keys ∧
    (∀ e ∈ new, s₀.store.contains e.key = false) ∧
    kept.map Entry.view = s₀.store.entries.filterMap (fun e =>
      (remains s₀ disposal jobs e.key).map (e.key.toValue, ·)) ∧
    (new.map Entry.view).Perm (jobs.filterMap (Job.arrival s₀ disposal))

section

variable {policy : Policy} {clock interval : Int} {g h : List Move} {m₀ m : Machine}
  {jobs : List Job} {disposal : Value → Reply} {who : Nat → Job}

theorem Underway.start (hg : Run (.start policy clock interval) g m₀)
    (h₀ : ∀ t, m₀.frames t = []) (hearly : m₀.shared.clock < m₀.shared.due) :
    Underway ⟨m₀.shared.policy, m₀.shared.clock, disposal⟩ who m₀.shared [] m₀ where
  fits := ⟨rfl, rfl⟩
  early := hearly
  frames t := h₀ t ▸ .idle
  status c hc := by cases hc
  aside k _ := by
    have hpending := (hg.trace.custody.idle h₀).1
    exact ⟨rfl, by simp [Shared.creation?, Shared.pending?, hpending]⟩
  arranged := ⟨m₀.shared.store.entries, [], by simp, List.Sublist.refl _, by simp⟩
  requested e he := by cases he
  nodup := .nil

theorem Underway.run (hg : Run (.start policy clock interval) g m₀)
    (h₀ : ∀ t, m₀.frames t = []) (hearly : m₀.shared.clock < m₀.shared.due) (hr : Run m₀ h m)
    (hdoes : Throughout (Label.Does who disposal) m₀ h)
    (hapart : Apart who (started (chronicle m₀.shared.clock h))) :
    Underway ⟨m₀.shared.policy, m₀.shared.clock, disposal⟩ who m₀.shared
      (chronicle m₀.shared.clock h) m := by
  induction hr with
  | start => exact .start hg h₀ hearly
  | @next h m m' l evs hr hl ih =>
    rw [hr.chronicle_next] at hapart ⊢
    have hold := hapart.mono (by
      rw [started_append]
      exact List.subset_append_left _ _)
    exact (ih hdoes.init hold).makes (hg.trace_append hr) hl (hdoes.at_move hr) hapart

end

namespace Shared

def Dated (s : Shared) : Prop :=
  ∀ e ∈ s.store.entries, ∃ v n, n < s.fresh ∧ Value.toKey n v = .ok e.key

variable {s : Shared} {v : Value} {k : Key} {c : Nat} {e : Entry}

theorem lease?_congr (s : Shared) {k k' : Key} (h : k.same k' = true) :
    s.lease? k = s.lease? k' := by
  rw [lease?, lease?, s.store.find?_congr h]

theorem lease?_isSome (s : Shared) (k : Key) : (s.lease? k).isSome = s.store.contains k := by
  simp [lease?, Store.find?_isSome]

theorem exists_of_lease? (h : (s.lease? k).isSome = true) :
    ∃ e ∈ s.store.entries, e.key.same k = true := by
  simpa [lease?, Store.find?] using h

theorem Dated.isProper (hs : s.Dated) (hk : v.toKey c = .ok k) (hc : s.fresh ≤ c)
    (he : e ∈ s.store.entries) (hsame : e.key.same k = true) : k.isProper = true := by
  obtain ⟨w, n, hn, hw⟩ := hs e he
  exact (Value.equal_of_same (by omega) hw hk hsame).isProper.2

theorem Dated.lease?_eq (hs : s.Dated) {c' : Nat} {k' : Key} (hk : v.toKey c = .ok k)
    (hc : s.fresh ≤ c) (hk' : v.toKey c' = .ok k') (hc' : s.fresh ≤ c') :
    s.lease? k = s.lease? k' := by
  have found {c c' : Nat} {k k' : Key} (hk : v.toKey c = .ok k) (hc : s.fresh ≤ c)
      (hk' : v.toKey c' = .ok k') (h : (s.lease? k).isSome = true) : k' = k := by
    obtain ⟨e, he, hsame⟩ := exists_of_lease? h
    obtain ⟨k'', hk'', -, heq⟩ := Value.toKey_of_toKey hk c'
    rw [← heq (hs.isProper hk hc he hsame)]
    exact Except.ok.inj (hk'.symm.trans hk'')
  cases h : s.lease? k with
  | some l => rw [found hk hc hk' (by simp [h]), h]
  | none =>
    cases h' : s.lease? k' with
    | none => rfl
    | some l => rw [← h', ← found hk' hc' hk (by simp [h']), h]

end Shared

theorem Run.dated {policy : Policy} {clock interval : Int} {g : List Move} {m₀ : Machine}
    (hg : Run (.start policy clock interval) g m₀) : m₀.shared.Dated := by
  intro e he
  obtain ⟨heq, -, -, -, -, hkey, -⟩ := hg.spelled he
  exact ⟨_, _, hg.trace.account.calls _ (heq ▸ by simp), hkey⟩

namespace Job

variable {s₀ : Shared} {j : Job} {c : Nat} {k : Key}

theorem map_toValue_eq_shown (j : Job) (c : Nat) : (j.key.toKey c).map Key.toValue = j.shown :=
  j.key.map_toValue_toKey c 0

theorem leaseOf_eq_before (hs : s₀.Dated) (hc : s₀.fresh ≤ c) :
    s₀.leaseOf (j.key.toKey c) = j.before s₀ := by
  cases hk : j.key.toKey c with
  | ok k =>
    obtain ⟨k', hk', -⟩ := Value.toKey_of_toKey hk s₀.fresh
    rw [before, hk']
    exact hs.lease?_eq hk hc hk' (Nat.le_refl _)
  | error f =>
    have hmap := j.key.map_toValue_toKey c s₀.fresh
    cases hk' : j.key.toKey s₀.fresh with
    | ok k' => simp [hk, hk', Except.map] at hmap
    | error f' =>
      rw [before, hk']
      rfl

theorem exists_of_concerns (h : j.concerns s₀ k = true) (c : Nat) :
    ∃ k', j.key.toKey c = .ok k' := by
  cases hk : j.key.toKey s₀.fresh with
  | error f => simp [concerns, hk, Except.toOption] at h
  | ok k' =>
    obtain ⟨k'', hk'', -⟩ := Value.toKey_of_toKey hk c
    exact ⟨k'', hk''⟩

theorem same_iff_concerns (hs : s₀.Dated) (hk : j.key.toKey c = .ok k) (hc : s₀.fresh ≤ c)
    {e : Entry} (he : e ∈ s₀.store.entries) :
    k.same e.key = true ↔ j.concerns s₀ e.key = true := by
  obtain ⟨k', hk', -⟩ := Value.toKey_of_toKey hk s₀.fresh
  have heq {a b : Nat} {x y : Key} (hx : j.key.toKey a = .ok x) (ha : s₀.fresh ≤ a)
      (hy : j.key.toKey b = .ok y) (h : x.same e.key = true) : y = x := by
    obtain ⟨z, hz, -, hzx⟩ := Value.toKey_of_toKey hx b
    rw [← hzx (hs.isProper hx ha he (Key.same_symm h))]
    exact Except.ok.inj (hy.symm.trans hz)
  rw [concerns, hk']
  constructor
  · intro h
    rw [heq hk hc hk' h]
    exact h
  · intro h
    rw [heq hk' (Nat.le_refl _) hk h]
    exact h

end Job

theorem perm_flatMap_filter {α : Type} {f : α → Nat} {cs : List Nat} (hcs : cs.Nodup) {xs : List α}
    (h : ∀ x ∈ xs, f x ∈ cs) : xs.Perm (cs.flatMap fun c => xs.filter (f · == c)) := by
  induction cs generalizing xs with
  | nil =>
    rw [List.eq_nil_iff_forall_not_mem.2 fun x hx => List.not_mem_nil (h x hx)]
    exact .nil
  | cons c cs ih =>
    obtain ⟨hc, hcs⟩ := List.nodup_cons.1 hcs
    have hmem : ∀ x ∈ xs.filter fun x => !(f x == c), f x ∈ cs := fun x hx => by
      obtain ⟨hx, hne⟩ := List.mem_filter.1 hx
      exact (List.mem_cons.1 (h x hx)).resolve_left (by simpa using hne)
    have hrest := ih hcs hmem
    have heq : (cs.flatMap fun d => (xs.filter fun x => !(f x == c)).filter (f · == d)) =
        cs.flatMap fun d => xs.filter (f · == d) := by
      refine List.flatMap_congr fun d hd => ?_
      rw [List.filter_filter]
      refine List.filter_congr fun x _ => ?_
      have hne : d ≠ c := fun h => hc (h ▸ hd)
      by_cases hx : f x = d <;> simp_all
    rw [heq] at hrest
    exact (List.filter_append_perm (f · == c) xs).symm.trans (hrest.append_left _)

namespace Store

variable {s₀ s : Store} {kept new : List Entry}

theorem view_of_sublist {f : Key → Option Lease} {es₀ : List Entry}
    (hk : (kept.map (·.key)).Sublist (es₀.map (·.key))) (hd : (es₀.map (·.key)).Nodup)
    (hf : ∀ e ∈ kept, f e.key = some e.record.toLease)
    (hn : ∀ k ∈ es₀.map (·.key), k ∉ kept.map (·.key) → f k = none) :
    kept.map Entry.view = es₀.filterMap fun e => (f e.key).map (e.key.toValue, ·) := by
  induction es₀ generalizing kept with
  | nil =>
    obtain rfl : kept = [] := by simpa using hk
    rfl
  | cons e₀ es₀ ih =>
    obtain ⟨hnot, hd⟩ := List.nodup_cons.1 hd
    obtain hk | ⟨ks, hks, hk⟩ := List.sublist_cons_iff.1 hk
    · have hnone := hn e₀.key (by simp) fun h => hnot (hk.subset h)
      rw [List.filterMap_cons_none (by rw [hnone]; rfl)]
      exact ih hk hd hf fun k hmem => hn k (List.mem_cons_of_mem _ hmem)
    · obtain ⟨e, kept, rfl, hkey, rfl⟩ := List.map_eq_cons_iff.1 hks
      obtain ⟨hfe, hf⟩ := List.forall_mem_cons.1 hf
      have hkey : e.key = e₀.key := hkey
      have hnot : e.key ∉ es₀.map (·.key) := hkey ▸ hnot
      rw [List.map_cons, List.filterMap_cons_some (by rw [← hkey, hfe]; rfl)]
      congr 1
      refine ih hk hd hf fun k hmem hkept => hn k (List.mem_cons_of_mem _ hmem) ?_
      rw [List.map_cons, List.mem_cons, not_or]
      exact ⟨fun h => hnot (h ▸ hmem), hkept⟩

theorem Distinct.nodup (h : s.Distinct) : s.keys.Nodup :=
  h.imp fun hab heq => by simp [heq] at hab

theorem Distinct.eq_of_same (h : s.Distinct) {a b : Key} (ha : a ∈ s.keys) (hb : b ∈ s.keys)
    (hab : a.same b = true) : a = b := by
  have hsymm : Std.Symm fun a b : Key => a.same b = false := ⟨fun a b h => (b.same_comm a).trans h⟩
  by_contra hne
  simp [h.forall ha hb hne] at hab

end Store

structure Finished (s₀ : Shared) (disposal : Value → Reply) (jobs : List Job) (who : Nat → Job)
    (es : List Timed) (m : Machine) : Prop where
  underway : Underway ⟨s₀.policy, s₀.clock, disposal⟩ who s₀ es m
  apart : Apart who (started es)
  all : ((started es).map who).Perm jobs
  recent : ∀ c ∈ started es, s₀.fresh ≤ c
  idle : ∀ t, m.frames t = []
  dated : s₀.Dated
  before : s₀.store.Distinct
  after : m.shared.store.Distinct

namespace Finished

variable {s₀ : Shared} {disposal : Value → Reply} {jobs : List Job} {who : Nat → Job}
  {es : List Timed} {m : Machine}

theorem returned (hf : Finished s₀ disposal jobs who es m) {c : Nat} (hc : c ∈ started es) :
    outcomes es c = [((who c).result s₀ disposal).outcome] ∧
      m.shared.leaseOf ((who c).key.toKey c) = ((who c).result s₀ disposal).lease ∧
      requests (trail es c) = ((who c).result s₀ disposal).requests := by
  have hstatus := hf.underway.status c hc
  rw [Job.leaseOf_eq_before hf.dated (hf.recent c hc)] at hstatus
  cases hstatus with
  | @working t p hl => simp [Machine.Live, hf.idle t] at hl
  | returned _ ho hu _ =>
    rw [Job.map_toValue_eq_shown] at hu
    exact ⟨hu.outcome ▸ ho, hu.lease, hu.requests⟩

theorem outcomes (hf : Finished s₀ disposal jobs who es m) :
    ((started es).map fun c => (who c, Lapse.outcomes es c)).Perm
      (jobs.map fun j => (j, [(j.result s₀ disposal).outcome])) := by
  have heq : ((started es).map fun c => (who c, Lapse.outcomes es c)) =
      ((started es).map who).map fun j => (j, [(j.result s₀ disposal).outcome]) := by
    rw [List.map_map]
    refine List.map_congr_left fun c hc => ?_
    simp [(hf.returned hc).1]
  rw [heq]
  exact hf.all.map _

theorem requests (hf : Finished s₀ disposal jobs who es m) :
    (Lapse.requests es).Perm (jobs.flatMap fun j => (j.result s₀ disposal).requests) := by
  have hsome (es : List Timed) :
      (es.filter (·.what.request?.isSome)).filterMap (·.what.request?) = Lapse.requests es := by
    rw [List.filterMap_filter, Lapse.requests]
    congr 1
    funext e
    cases e.what.request? <;> rfl
  have hsort := (perm_flatMap_filter hf.underway.nodup fun e he => hf.underway.requested e
    (List.mem_filter.1 he).1 (List.mem_filter.1 he).2).filterMap (·.what.request?)
  rw [hsome, List.filterMap_flatMap] at hsort
  have heach : ((started es).flatMap fun c => ((es.filter (·.what.request?.isSome)).filter
      (·.call == c)).filterMap (·.what.request?)) =
      ((started es).map who).flatMap fun j => (j.result s₀ disposal).requests := by
    rw [List.flatMap_map]
    refine List.flatMap_congr fun c hc => ?_
    rw [List.filter_filter, ← (hf.returned hc).2.2, ← hsome, trail, List.filter_filter]
    simp only [Bool.and_comm]
  rw [heach] at hsort
  exact hsort.trans (hf.all.flatMap_right _)

theorem remains_eq (hf : Finished s₀ disposal jobs who es m) {e : Entry}
    (he : e ∈ s₀.store.entries) : m.shared.lease? e.key = remains s₀ disposal jobs e.key := by
  rw [remains]
  cases hj : jobs.find? (·.concerns s₀ e.key) with
  | some j =>
    obtain ⟨c, hc, rfl⟩ := List.mem_map.1 (hf.all.symm.subset (List.mem_of_find?_eq_some hj))
    obtain ⟨k, hk⟩ := Job.exists_of_concerns (List.find?_some hj) c
    have hl := (hf.returned hc).2.1
    rw [hk, Shared.leaseOf_ok] at hl
    have hsame : k.same e.key = true :=
      (Job.same_iff_concerns hf.dated hk (hf.recent c hc) he).2 (List.find?_some hj)
    rw [← m.shared.lease?_congr hsame]
    exact hl
  | none =>
    refine (hf.underway.aside e.key fun c hc k hk => Bool.eq_false_iff.2 fun hsame => ?_).1
    have := List.find?_eq_none.1 hj _ (hf.all.subset (List.mem_map_of_mem hc))
    exact this ((Job.same_iff_concerns hf.dated hk (hf.recent c hc) he).1 hsame)

theorem lease?_of_mem (hf : Finished s₀ disposal jobs who es m) {e : Entry}
    (he : e ∈ m.shared.store.entries) : m.shared.lease? e.key = some e.record.toLease := by
  rw [Shared.lease?, hf.after.find?_of_mem he]
  rfl

theorem kept (hf : Finished s₀ disposal jobs who es m) {kept new : List Entry}
    (hs : m.shared.store.entries = kept ++ new)
    (hkept : (kept.map (·.key)).Sublist s₀.store.keys)
    (hnew : ∀ e ∈ new, s₀.store.contains e.key = false) :
    kept.map Entry.view = s₀.store.entries.filterMap fun e =>
      (remains s₀ disposal jobs e.key).map (e.key.toValue, ·) := by
  have hview := Store.view_of_sublist (f := m.shared.lease?) hkept hf.before.nodup
    (fun e he => hf.lease?_of_mem (hs ▸ List.mem_append_left _ he)) fun k hk hno => by
      rw [← Option.not_isSome_iff_eq_none]
      intro hsome
      obtain ⟨e, he, hsame⟩ := Shared.exists_of_lease? hsome
      rw [hs, List.mem_append] at he
      obtain he | he := he
      · have hmem : e.key ∈ kept.map (·.key) := List.mem_map_of_mem he
        exact hno (hf.before.eq_of_same (hkept.subset hmem) hk hsame ▸ hmem)
      · have hcontains := (s₀.store.contains_iff e.key).2 ⟨k, hk, Key.same_symm hsame⟩
        simp [hnew e he] at hcontains
  rw [hview]
  refine List.filterMap_congr fun e he => ?_
  rw [hf.remains_eq he]

theorem arrivals (hf : Finished s₀ disposal jobs who es m) {kept new : List Entry}
    (hs : m.shared.store.entries = kept ++ new)
    (hkept : (kept.map (·.key)).Sublist s₀.store.keys)
    (hnew : ∀ e ∈ new, s₀.store.contains e.key = false ∧
      ∃ c ∈ started es, (who c).key.toKey c = .ok e.key) :
    (new.map Entry.view).Perm (jobs.filterMap (Job.arrival s₀ disposal)) := by
  -- the key of a call that found nothing under it and left something
  let own (c : Nat) : Option Key := ((who c).key.toKey c).toOption.filter fun k =>
    (s₀.lease? k).isNone && (m.shared.lease? k).isSome
  have own_iff {c : Nat} {k : Key} : own c = some k ↔ (who c).key.toKey c = .ok k ∧
      s₀.store.contains k = false ∧ m.shared.store.contains k = true := by
    simp only [own, Option.filter_eq_some_iff, Bool.and_eq_true, ← Option.not_isSome,
      Shared.lease?_isSome, Bool.not_eq_true']
    cases (who c).key.toKey c <;> simp [Except.toOption]
  have hkeys : m.shared.store.keys = kept.map (·.key) ++ new.map (·.key) := by
    rw [Store.keys, hs, List.map_append]
  have hperm : (new.map (·.key)).Perm ((started es).filterMap own) := by
    refine (List.perm_ext_iff_of_nodup ?_ ?_).2 fun k => ?_
    · exact (List.nodup_append.1 (hkeys ▸ hf.after.nodup)).2.1
    · refine List.pairwise_filterMap.2
        (hf.underway.nodup.imp_of_mem fun hc hd hne k hk k' hk' => ?_)
      rintro rfl
      have := hf.apart.apart _ hc _ hd hne k k (own_iff.1 hk).1 (own_iff.1 hk').1
      simp at this
    · rw [List.mem_filterMap]
      constructor
      · intro hk
        obtain ⟨e, he, rfl⟩ := List.mem_map.1 hk
        obtain ⟨habsent, c, hc, hck⟩ := hnew e he
        refine ⟨c, hc, own_iff.2 ⟨hck, habsent, ?_⟩⟩
        exact (m.shared.store.contains_iff _).2 ⟨e.key, by simp [hkeys, hk], Key.same_refl _⟩
      · rintro ⟨c, hc, hown⟩
        obtain ⟨hck, habsent, hpresent⟩ := own_iff.1 hown
        obtain ⟨k', hk', hsame⟩ := (m.shared.store.contains_iff k).1 hpresent
        rw [hkeys, List.mem_append] at hk'
        obtain hk' | hk' := hk'
        · have := (s₀.store.contains_iff k).2 ⟨k', hkept.subset hk', hsame⟩
          simp [habsent] at this
        · obtain ⟨e, he, rfl⟩ := List.mem_map.1 hk'
          obtain ⟨-, d, hd, hdk⟩ := hnew e he
          by_cases hcd : d = c
          · subst hcd
            rw [hck] at hdk
            exact Except.ok.inj hdk ▸ hk'
          · simp [hf.apart.apart d hd c hc hcd _ _ hdk hck] at hsame
  have hview : new.map Entry.view = (new.map (·.key)).filterMap fun k =>
      (m.shared.lease? k).map (k.toValue, ·) := by
    rw [List.filterMap_map, ← List.filterMap_eq_map]
    refine List.filterMap_congr fun e he => ?_
    simp [hf.lease?_of_mem (hs ▸ List.mem_append_right _ he), Entry.view]
  have hfound : ((started es).filterMap own).filterMap (fun k =>
      (m.shared.lease? k).map (k.toValue, ·)) =
      ((started es).map who).filterMap (Job.arrival s₀ disposal) := by
    rw [List.filterMap_filterMap, List.filterMap_map]
    refine List.filterMap_congr fun c hc => ?_
    simp only [Function.comp, own, Job.arrival, ← (hf.returned hc).2.1,
      ← Job.map_toValue_eq_shown _ c, ← Job.leaseOf_eq_before hf.dated (hf.recent c hc)]
    cases (who c).key.toKey c with
    | error f => rfl
    | ok k =>
      simp only [Except.toOption, Except.map, Shared.leaseOf_ok, Option.filter_some]
      obtain h₀ | ⟨l, h₀⟩ := Option.eq_none_or_eq_some (s₀.lease? k) <;>
        obtain h | ⟨l', h⟩ := Option.eq_none_or_eq_some (m.shared.lease? k) <;> simp [h₀, h]
  rw [hview]
  refine (hperm.filterMap _).trans ?_
  rw [hfound]
  exact hf.all.filterMap _

end Finished

namespace Schedule

variable {policy : Policy} {clock interval : Int} {g h : List Move} {m₀ m : Machine}
  {jobs : List Job} {disposal : Value → Reply} {who : Nat → Job}

theorem finished (hs : Schedule jobs disposal who m₀ h m)
    (hg : Run (.start policy clock interval) g m₀) (h₀ : ∀ t, m₀.frames t = [])
    (hearly : m₀.shared.clock < m₀.shared.due) (hj : Independent jobs) :
    Finished m₀.shared disposal jobs who (chronicle m₀.shared.clock h) m := by
  have hapart := hj.apart hs.all
  have hshaped := hg.trace.shaped (.start policy clock interval)
  refine ⟨.run hg h₀ hearly hs.run hs.does hapart, hapart, hs.all, fun c hc => ?_, hs.idle,
    hg.dated, hg.distinct, (hg.trans hs.run).distinct⟩
  obtain ⟨e, he, rfl⟩ := List.mem_map.1 hc
  exact ((hs.run.trace_from hshaped).recent h₀).events e (List.mem_filter.1 he).1

theorem settled (hs : Schedule jobs disposal who m₀ h m)
    (hg : Run (.start policy clock interval) g m₀) (h₀ : ∀ t, m₀.frames t = [])
    (hearly : m₀.shared.clock < m₀.shared.due) (hj : Independent jobs) :
    Settled m₀.shared disposal jobs who (chronicle m₀.shared.clock h) m.shared.store := by
  have hf := hs.finished hg h₀ hearly hj
  obtain ⟨kept, new, heq, hkept, hnew⟩ := hf.underway.arranged
  exact ⟨hf.outcomes, hf.requests, kept, new, heq, hkept, fun e he => (hnew e he).1,
    hf.kept heq hkept fun e he => (hnew e he).1, hf.arrivals heq hkept hnew⟩

end Schedule

/-- Two stores that hold the same, and the entries of a third that they still hold in its order;
only the entries that were not there before may stand in different orders. -/
def Rearranged (s₀ s s' : Store) : Prop :=
  ∃ kept new kept' new', s.entries = kept ++ new ∧ s'.entries = kept' ++ new' ∧
    (kept.map (·.key)).Sublist s₀.keys ∧ (kept'.map (·.key)).Sublist s₀.keys ∧
    (∀ e ∈ new ++ new', s₀.contains e.key = false) ∧
    kept.map Entry.view = kept'.map Entry.view ∧ (new.map Entry.view).Perm (new'.map Entry.view)

structure Commute (s₀ : Store) (who who' : Nat → Job) (es es' : List Timed) (s s' : Store) :
    Prop where
  once : ∀ c ∈ started es, (outcomes es c).length = 1
  outcomes : ((started es).map fun c => (who c, outcomes es c)).Perm
    ((started es').map fun c => (who' c, outcomes es' c))
  requests : (requests es).Perm (requests es')
  entries : Rearranged s₀ s s'

/-- Independent jobs come to the same under every schedule. -/
theorem Run.commute {policy : Policy} {clock interval : Int} {g h h' : List Move}
    {m₀ m m' : Machine} {jobs : List Job} {disposal : Value → Reply} {who who' : Nat → Job}
    (hg : Run (.start policy clock interval) g m₀) (h₀ : ∀ t, m₀.frames t = [])
    (hearly : m₀.shared.clock < m₀.shared.due) (hj : Independent jobs)
    (hs : Schedule jobs disposal who m₀ h m) (hs' : Schedule jobs disposal who' m₀ h' m') :
    Commute m₀.shared.store who who' (chronicle m₀.shared.clock h)
      (chronicle m₀.shared.clock h') m.shared.store m'.shared.store := by
  have hsettled := hs.settled hg h₀ hearly hj
  have hsettled' := hs'.settled hg h₀ hearly hj
  refine ⟨fun c hc => ?_, hsettled.outcomes.trans hsettled'.outcomes.symm,
    hsettled.requests.trans hsettled'.requests.symm, ?_⟩
  · simp [((hs.finished hg h₀ hearly hj).returned hc).1]
  · obtain ⟨kept, new, heq, hkept, hnew, hview, harr⟩ := hsettled.entries
    obtain ⟨kept', new', heq', hkept', hnew', hview', harr'⟩ := hsettled'.entries
    exact ⟨kept, new, kept', new', heq, heq', hkept, hkept',
      fun e he => (List.mem_append.1 he).elim (hnew e) (hnew' e), hview.trans hview'.symm,
      harr.trans harr'.symm⟩

def Job.differs (i j : Job) : Bool :=
  match i.key.toKey 0, j.key.toKey 0 with
  | .ok k, .ok k' => !(k.same k' && k.isProper)
  | _, _ => true

theorem Job.unequal_of_differs {i j : Job} (h : i.differs j = true) : i.Unequal j := by
  intro k k' hk hk' heq
  simp [Job.differs, hk, hk', Key.same_iff.2 heq.normal, heq.isProper.1] at h

/-- Operations of a schedule that is only of numbers; whether a value is another is not decidable in
general. -/
def Op.tallies : Op → Op → Bool
  | .fetch (.int a) (.int b), .fetch (.int a') (.int b') => a == a' && b == b'
  | .fetch (.float a) (.int b), .fetch (.float a') (.int b') => a = a' && b == b'
  | .fetch (.list []) (.int b), .fetch (.list []) (.int b') => b == b'
  | .erase (.int a), .erase (.int a') => a == a'
  | .erase (.list []), .erase (.list []) => true
  | _, _ => false

theorem Op.eq_of_tallies {op op' : Op} (h : op.tallies op' = true) : op = op' := by
  revert h
  fun_cases Op.tallies op op' <;> simp_all

def Reply.tallies : Reply → Reply → Bool
  | .ok (.text a), .ok (.text b) => a == b
  | .error (.raised .boom a), .error (.raised .boom b) => a == b
  | _, _ => false

theorem Reply.eq_of_tallies {r r' : Reply} (h : Reply.tallies r r' = true) : r = r' := by
  revert h
  fun_cases Reply.tallies r r' <;> simp_all

def Label.tallies (who : Nat → Job) (disposal : Value → Reply) (m : Machine) : Label → Bool
  | .call t op => (m.frames t).isEmpty && op.tallies (who m.shared.fresh).op
  | .step _ => true
  | .reply t r =>
    match m.frames t with
    | [] => true
    | f :: _ => f.point.ask?.all fun a => Reply.tallies r ((who f.call).answer disposal a)
  | .advance _ => false

theorem Label.does_of_tallies {who : Nat → Job} {disposal : Value → Reply} {m : Machine} {l : Label}
    (h : l.tallies who disposal m = true) : l.Does who disposal m := by
  cases l with
  | call t op =>
    obtain ⟨hf, hop⟩ := Bool.and_eq_true_iff.1 h
    exact ⟨List.isEmpty_iff.1 hf, Op.eq_of_tallies hop⟩
  | step t => trivial
  | reply t r =>
    intro c p rest a hf ha
    simp only [tallies, hf, ha, Option.all_some] at h
    exact Reply.eq_of_tallies h
  | advance ns => cases h

theorem Schedule.perform {who : Nat → Job} {disposal : Value → Reply} {m : Machine}
    {ls : List Label} {jobs : List Job}
    (hdoes : Throughout.check (fun m l => l.tallies who disposal m = true) m ls = true)
    (hall : ((started (chronicle m.shared.clock (m.perform ls).1)).map who).Perm jobs)
    (hidle : (m.perform ls).2.calls.table.all (·.2.isEmpty) = true) :
    Schedule jobs disposal who m (m.perform ls).1 (m.perform ls).2 where
  run := .perform m ls
  does g mv g' m' heq hr := Label.does_of_tallies (Throughout.perform hdoes g mv g' m' heq hr)
  all := hall
  idle t := Stacks.get_eq_nil hidle t

/-- One key is renewed, one is removed and its disposal fails, two are supplied, the supplier of one
fails, and one cannot be hashed. -/
def chore : Nat → Job
  | 0 => .fetch (.int 1) (.int 7) fun _ => .ok (.text "z")
  | 1 => .erase (.int 2)
  | 2 => .fetch (.int 3) (.int 5) fun _ => .ok (.text "c")
  | 3 => .fetch (.float .nan) (.int 5) fun _ => .ok (.text "n")
  | 4 => .fetch (.int 4) (.int 5) fun _ => .error (.raised .boom "no")
  | _ => .fetch (.list []) (.int 5) fun _ => .ok .null

def chores : List Job := (List.range 6).map chore

def prelude : List Label :=
  List.flatten [
    [.call 0 (.fetch (.int 1) (.int 5))], .replicate 8 (.step 0),
    [.reply 0 (.ok (.text "a"))], .replicate 4 (.step 0),
    [.call 0 (.fetch (.int 2) (.int 5))], .replicate 8 (.step 0),
    [.reply 0 (.ok (.text "b"))], .replicate 4 (.step 0)]

def oneByOne : List Label :=
  List.flatten [
    [.call 0 (.fetch (.int 1) (.int 7))], .replicate 6 (.step 0),
    [.call 0 (.erase (.int 2))], .replicate 2 (.step 0),
    [.reply 0 (.error (.raised .boom "b")), .step 0],
    [.call 0 (.fetch (.int 3) (.int 5))], .replicate 8 (.step 0),
    [.reply 0 (.ok (.text "c"))], .replicate 4 (.step 0),
    [.call 0 (.fetch (.float .nan) (.int 5))], .replicate 8 (.step 0),
    [.reply 0 (.ok (.text "n"))], .replicate 4 (.step 0),
    [.call 0 (.fetch (.int 4) (.int 5))], .replicate 8 (.step 0),
    [.reply 0 (.error (.raised .boom "no"))], .replicate 3 (.step 0),
    [.call 0 (.fetch (.list []) (.int 5))], .replicate 6 (.step 0)]

def allAtOnce : List Label :=
  List.flatten [
    [.call 3 (.fetch (.float .nan) (.int 5))], .replicate 6 (.step 3),
    [.call 2 (.fetch (.int 3) (.int 5))], .replicate 8 (.step 2),
    [.call 1 (.erase (.int 2))], .replicate 2 (.step 1), .replicate 2 (.step 3),
    [.call 4 (.fetch (.int 4) (.int 5))], .replicate 8 (.step 4),
    [.call 0 (.fetch (.int 1) (.int 7))], .replicate 3 (.step 0),
    [.call 5 (.fetch (.list []) (.int 5))], .replicate 5 (.step 5),
    [.reply 3 (.ok (.text "n"))], .replicate 2 (.step 3),
    [.reply 2 (.ok (.text "c")), .step 2], .replicate 3 (.step 0),
    [.reply 4 (.error (.raised .boom "no"))], .replicate 3 (.step 4),
    [.reply 1 (.error (.raised .boom "b")), .step 1], .replicate 3 (.step 2),
    .replicate 2 (.step 3), [.step 5]]

def assigned (job : Nat → Job) (calls order : List Nat) (c : Nat) : Job :=
  job ((order[calls.idxOf c]?).getD order.length)

theorem schedule_of_assigned {job : Nat → Job} {n : Nat} {m : Machine} {ls : List Label}
    {disposal : Value → Reply} (calls order : List Nat) (horder : order.Perm (List.range n))
    (heq : calls.map (assigned job calls order) = order.map job)
    (hcalls : started (chronicle m.shared.clock (m.perform ls).1) = calls)
    (hdoes : Throughout.check
      (fun m l => l.tallies (assigned job calls order) disposal m = true) m ls = true)
    (hidle : (m.perform ls).2.calls.table.all (·.2.isEmpty) = true) :
    Schedule ((List.range n).map job) disposal (assigned job calls order) m (m.perform ls).1
      (m.perform ls).2 :=
  .perform hdoes (by rw [hcalls, heq]; exact horder.map job) hidle

def prepared : Machine := ((Machine.start ⟨true, true⟩ 0 10).perform prelude).2

theorem independent_chores : Independent chores where
  keyed key hkey := by
    obtain rfl : key = .int 2 := by simpa [chores, chore, List.range_succ] using hkey
    exact ⟨.int 2, rfl⟩
  unequal := by
    have h : chores.Pairwise fun i j => i.differs j = true := by decide +kernel
    exact h.imp Job.unequal_of_differs

theorem commute_chores :
    ∃ (who who' : Nat → Job) (disposal : Value → Reply) (g h h' : List Move) (m m' : Machine),
      Run (.start ⟨true, true⟩ 0 10) g prepared ∧ (∀ t, prepared.frames t = []) ∧
      prepared.shared.clock < prepared.shared.due ∧ Independent chores ∧
      Schedule chores disposal who prepared h m ∧ Schedule chores disposal who' prepared h' m' ∧
      Commute prepared.shared.store who who' (chronicle prepared.shared.clock h)
        (chronicle prepared.shared.clock h') m.shared.store m'.shared.store ∧
      (chronicle prepared.shared.clock h).length = 40 ∧
      m.shared.store.keys.length = 3 ∧ m.shared.store.keys ≠ m'.shared.store.keys := by
  have hs : Schedule chores (fun _ => .error (.raised .boom "b"))
      (assigned chore [8, 11, 12, 16, 20, 23] [0, 1, 2, 3, 4, 5]) prepared
      (prepared.perform oneByOne).1 (prepared.perform oneByOne).2 :=
    schedule_of_assigned _ _ (.refl _) rfl (by decide +kernel) (by decide +kernel)
      (by decide +kernel)
  have hs' : Schedule chores (fun _ => .error (.raised .boom "b"))
      (assigned chore [8, 11, 14, 15, 18, 20] [3, 2, 1, 4, 0, 5]) prepared
      (prepared.perform allAtOnce).1 (prepared.perform allAtOnce).2 :=
    schedule_of_assigned _ _ (by decide) rfl (by decide +kernel) (by decide +kernel)
      (by decide +kernel)
  have hg : Run (.start ⟨true, true⟩ 0 10)
      ((Machine.start ⟨true, true⟩ 0 10).perform prelude).1 prepared := .perform _ _
  have h₀ : ∀ t, prepared.frames t = [] := Stacks.get_eq_nil (by decide +kernel)
  have hearly : prepared.shared.clock < prepared.shared.due := by decide +kernel
  exact ⟨_, _, _, _, _, _, _, _, hg, h₀, hearly, independent_chores, hs, hs',
    hg.commute h₀ hearly independent_chores hs hs', by decide +kernel, by decide +kernel,
    by decide +kernel⟩

def stray : Nat → Job
  | 0 => .fetch (.int 1) (.int 5) fun _ => .ok (.text "A")
  | _ => .erase (.list [])

def strays : List Job := (List.range 2).map stray

def fetchFirst : List Label :=
  List.flatten [
    [.call 0 (.fetch (.int 1) (.int 5))], .replicate 8 (.step 0),
    [.reply 0 (.ok (.text "A"))], .replicate 4 (.step 0),
    [.call 0 (.erase (.list []))], .replicate 2 (.step 0)]

def eraseFirst : List Label :=
  List.flatten [
    [.call 0 (.erase (.list []))], .replicate 7 (.step 0),
    [.call 0 (.fetch (.int 1) (.int 5))], .replicate 8 (.step 0),
    [.reply 0 (.ok (.text "A"))], .replicate 4 (.step 0)]

theorem not_commute_stray :
    ∃ (who who' : Nat → Job) (disposal : Value → Reply) (h h' : List Move) (m m' : Machine),
      (∀ t, (Machine.start ⟨false, false⟩ 0 10).frames t = []) ∧
      (Machine.start ⟨false, false⟩ 0 10).shared.clock <
        (Machine.start ⟨false, false⟩ 0 10).shared.due ∧
      strays.Pairwise Job.Unequal ∧
      Schedule strays disposal who (.start ⟨false, false⟩ 0 10) h m ∧
      Schedule strays disposal who' (.start ⟨false, false⟩ 0 10) h' m' ∧
      ¬Commute .empty who who' (chronicle 0 h) (chronicle 0 h') m.shared.store m'.shared.store := by
  have hs : Schedule strays (fun _ => .ok .null) (assigned stray [0, 4] [0, 1])
      (.start ⟨false, false⟩ 0 10) ((Machine.start ⟨false, false⟩ 0 10).perform fetchFirst).1
      ((Machine.start ⟨false, false⟩ 0 10).perform fetchFirst).2 :=
    schedule_of_assigned _ _ (.refl _) rfl (by decide +kernel) (by decide +kernel)
      (by decide +kernel)
  have hs' : Schedule strays (fun _ => .ok .null) (assigned stray [0, 2] [1, 0])
      (.start ⟨false, false⟩ 0 10) ((Machine.start ⟨false, false⟩ 0 10).perform eraseFirst).1
      ((Machine.start ⟨false, false⟩ 0 10).perform eraseFirst).2 :=
    schedule_of_assigned _ _ (by decide) rfl (by decide +kernel) (by decide +kernel)
      (by decide +kernel)
  refine ⟨_, _, _, _, _, _, _, fun _ => rfl, by decide, ?_, hs, hs', fun hcommute => ?_⟩
  · have h : strays.Pairwise fun i j => i.differs j = true := by decide +kernel
    exact h.imp Job.unequal_of_differs
  · have hcount := hcommute.outcomes.countP_eq fun x => x.2.all (·.isOk)
    revert hcount
    decide +kernel

end Lapse
