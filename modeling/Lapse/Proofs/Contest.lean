import Mathlib.Data.List.Perm.Basic
import Lapse.Proofs.Chart
import Lapse.Proofs.Episode

namespace Lapse

theorem split_of_filter {α : Type} {p : α → Bool} {xs ys zs ws : List α} {a b : α}
    (h : xs.filter p = ys ++ a :: (zs ++ b :: ws)) : ∃ u v w, xs = u ++ a :: (v ++ b :: w) := by
  obtain ⟨x₁, x₂, rfl, -, h⟩ := List.filter_eq_append_iff.1 h
  obtain ⟨x₃, x₄, rfl, -, -, h⟩ := List.filter_eq_cons_iff.1 h
  obtain ⟨x₅, x₆, rfl, -, h⟩ := List.filter_eq_append_iff.1 h
  obtain ⟨x₇, x₈, rfl, -, -, -⟩ := List.filter_eq_cons_iff.1 h
  exact ⟨x₁ ++ x₃, x₅ ++ x₇, x₈, by simp⟩

theorem flatMap_eq_range {α β : Type} {xs : List α} {g : α → List β} {o : Nat → β}
    (h : ∀ i a, xs[i]? = some a → g a = [o i]) :
    xs.flatMap g = (List.range xs.length).map o := by
  induction xs using List.reverseRecOn with
  | nil => rfl
  | append_singleton xs x ih =>
    have hx : g x = [o xs.length] := h _ x (getElem?_middle xs [] x)
    rw [List.flatMap_append, ih fun i a hi => h i a (getElem?_append_some hi _), List.length_append,
      List.length_singleton, List.range_succ, List.map_append]
    simp [hx]

theorem flatMap_eq_replicate {α β : Type} {xs : List α} {g : α → List β} {o : β}
    (h : ∀ a ∈ xs, g a = [o]) : xs.flatMap g = List.replicate xs.length o := by
  induction xs with
  | nil => rfl
  | cons x xs ih =>
    rw [List.forall_mem_cons] at h
    simp [h.1, ih h.2, List.replicate_succ]

theorem perm_of_subset {α : Type} [DecidableEq α] {xs ys : List α} (hx : xs.Nodup) (hy : ys.Nodup)
    (h : ys ⊆ xs) : xs.Perm (ys ++ xs.filter (· ∉ ys)) := by
  refine (List.perm_ext_iff_of_nodup hx ?_).2 fun a => ?_
  · refine hy.append (hx.filter _) fun a ha hf => ?_
    simp [ha] at hf
  · by_cases ha : a ∈ ys
    · simp [ha, h ha]
    · simp [ha]

def Happening.coercible : Happening → Bool
  | called (.fetch _ ttl) => ttl.toInteger.toBool
  | _ => false

def replies (es : List Timed) (c : Nat) : List Reply := (trail es c).filterMap (·.what.replied?)

def scripted (m : Nat) (f : Nat → Fault) (v : Value) (i : Nat) : Reply :=
  if i < m then .error (f i) else .ok v

theorem outcome_scripted_of_lt {m i : Nat} {f : Nat → Fault} {v : Value} (h : i < m) :
    (scripted m f v i).outcome = .error (f i) := by
  simp [scripted, h, Reply.outcome, Except.map]

theorem outcome_scripted_of_le {m i : Nat} {f : Nat → Fault} {v : Value} (h : m ≤ i) :
    (scripted m f v i).outcome = .ok (.value v) := by
  simp [scripted, Nat.not_lt.2 h, Reply.outcome, Except.map]

/-- As many threads fetch the key, each once, with a proper lifetime; no pass starts and nobody
removes the key; the attempts are answered by the script. -/
structure Contest (k : Key) (n m : Nat) (f : Nat → Fault) (v : Value) (es : List Timed) : Prop where
  count : (callers k es).length = n
  threads : ((callers k es).map (·.thread)).Nodup
  coercible : ∀ b ∈ callers k es, b.what.coercible = true
  unswept : ∀ e ∈ es, e.what.passed? = none
  kept : ∀ e ∈ es, e.what.deletes k = false
  script : ∀ i ≤ m, ∀ a, (attempts k es)[i]? = some a → ∀ r ∈ replies es a.call,
    r = scripted m f v i

structure Verdict (k : Key) (n m : Nat) (f : Nat → Fault) (v : Value) (es : List Timed)
    (final : Machine) : Prop where
  supplied : (attempts k es).length = min n (m + 1)
  own : ((attempts k es).map (·.call)).Nodup ∧
    ∀ a ∈ attempts k es, ∃ b ∈ callers k es, b.call = a.call
  raised : ∀ i < m, ∀ a, (attempts k es)[i]? = some a → outcomes es a.call = [.error (f i)]
  answered : ∀ b ∈ callers k es,
    (∀ i < m, ∀ a, (attempts k es)[i]? = some a → a.call ≠ b.call) →
      outcomes es b.call = [.ok (.value v)]
  tally : ((callers k es).flatMap fun b => outcomes es b.call).Perm
    ((List.range (min n m)).map (fun i => .error (f i)) ++
      List.replicate (n - m) (.ok (.value v)))
  present : m < n → ∃ r, final.shared.store.find? k = some r ∧ r.value = v
  absent : n ≤ m → final.shared.store.contains k = false
  pending : final.shared.pending = []
  held : final.shared.held = []

theorem Happening.deletes_congr {k k' : Key} (h : k.same k' = true) (x : Happening) :
    x.deletes k = x.deletes k' := by
  cases x with
  | deleted k₁ r => exact Key.same_congr_right h k₁
  | _ => rfl

theorem mem_replies {es : List Timed} {c : Nat} {r : Reply} :
    r ∈ replies es c ↔ ∃ y ∈ es, y.call = c ∧ y.what = .replied r := by
  simp only [replies, List.mem_filterMap, mem_trail]
  constructor
  · rintro ⟨y, ⟨hy, hc⟩, hr⟩
    refine ⟨y, hy, hc, ?_⟩
    cases hw : y.what with
    | replied r' =>
      rw [hw] at hr
      cases hr
      rfl
    | _ => simp [hw, Happening.replied?] at hr
  · rintro ⟨y, hy, hc, hw⟩
    exact ⟨y, ⟨hy, hc⟩, by simp [hw, Happening.replied?]⟩

namespace Contest

variable {policy : Policy} {clock interval : Int} {final : Machine} {es₀ es : List Timed}
  {N n m i : Nat} {k : Key} {s₀ : Store} {f : Nat → Fault} {v w : Value} {a b y : Timed}

theorem reply_eq (hc : Contest k n m f v es) (ha : (attempts k es)[i]? = some a) (hi : i ≤ m)
    (hy : y ∈ es) (hya : y.call = a.call) {r : Reply} (hw : y.what = .replied r) :
    r = scripted m f v i :=
  hc.script i hi a ha r (mem_replies.2 ⟨y, hy, hya, hw⟩)

theorem attempts_subset (h : Machine.Episode policy clock interval N s₀ es₀ es final) :
    (attempts k es).map (·.call) ⊆ (callers k es).map (·.call) := by
  intro c hc
  obtain ⟨a, ha, rfl⟩ := List.mem_map.1 hc
  obtain ⟨b, hb, hbc⟩ := h.caller_of_attempt ha
  exact List.mem_map.2 ⟨b, hb, hbc⟩

variable (hc : Contest k n m f v es)
  (h : Machine.Episode policy clock interval N s₀ es₀ es final)
include hc h

theorem attempts_le : (attempts k es).length ≤ m + 1 := by
  by_contra hlt
  obtain ⟨a, ha⟩ : ∃ a, (attempts k es)[m]? = some a := ⟨_, List.getElem?_eq_getElem (by omega)⟩
  obtain ⟨b, hb⟩ : ∃ b, (attempts k es)[m + 1]? = some b :=
    ⟨_, List.getElem?_eq_getElem (by omega)⟩
  obtain ⟨hae, hsa⟩ := mem_attempts.1 (List.mem_of_getElem? ha)
  obtain ⟨-, hsb⟩ := mem_attempts.1 (List.mem_of_getElem? hb)
  obtain ⟨ka, hwa, hka⟩ := Happening.supplies_iff.1 hsa
  obtain ⟨kb, hwb, hkb⟩ := Happening.supplies_iff.1 hsb
  obtain ⟨p, q, r, hsplit, -⟩ := split_between ha hb (Nat.lt_succ_self m)
  obtain ⟨u, x, w, rfl⟩ := split_of_filter hsplit
  have hkept : ∀ e ∈ x, e.what.deletes ka = false := by
    intro e he
    rw [Happening.deletes_congr hka]
    exact hc.kept e (by simp [he])
  obtain ⟨e, he, hec, f', hew⟩ := h.trace.fails (List.append_assoc ..).symm hwa hwb
    (Key.same_trans hka (Key.same_symm hkb)) hkept
  have := hc.reply_eq ha (Nat.le_refl m) (by simp [he]) hec hew
  simp [scripted] at this

theorem reached (ha : a ∈ attempts k es) (hy : y ∈ es) (hya : y.call = a.call)
    (hw : y.what = .replied (.ok w)) :
    w = v ∧ (attempts k es).length = m + 1 := by
  have hle := hc.attempts_le h
  obtain ⟨i, hi⟩ := List.mem_iff_getElem?.1 ha
  obtain ⟨hlt, -⟩ := List.getElem?_eq_some_iff.1 hi
  have hr := hc.reply_eq hi (by omega) hy hya hw
  by_cases him : i < m
  · simp [scripted, him] at hr
  · refine ⟨by simpa [scripted, him] using hr, by omega⟩

theorem stored (h₀ : s₀.find? k = none) {r : Record} (hr : final.shared.store.find? k = some r) :
    r.value = v ∧ (attempts k es).length = m + 1 := by
  obtain ⟨a, ha, y, hy, hya, hw⟩ := h.attempt_of_stored h₀ hr
  exact hc.reached h ha hy hya hw

theorem returned_attempt (hm : ∀ t, final.frames t = []) (ha : (attempts k es)[i]? = some a) :
    ∃ b key ttl, b ∈ callers k es ∧ b.call = a.call ∧ b.what = .called (.fetch key ttl) ∧
      Machine.Episode.Returned policy es₀ es b key ttl (scripted m f v i).outcome := by
  have hle := hc.attempts_le h
  obtain ⟨hlt, -⟩ := List.getElem?_eq_some_iff.1 ha
  have hmem := List.mem_of_getElem? ha
  obtain ⟨b, hb, hbc⟩ := h.caller_of_attempt hmem
  obtain ⟨hbe, hf⟩ := mem_callers.1 hb
  obtain ⟨key, ttl, -, hwb, -⟩ := Timed.fetches_iff.1 hf
  obtain ⟨o, hret⟩ := h.returned hm hbe hwb
  obtain ⟨y, hy, hya, r, hw, rfl⟩ := h.outcome_of_attempt hret hmem hbc.symm
  obtain rfl := hc.reply_eq ha (by omega) hy hya hw
  exact ⟨b, key, ttl, hb, hbc, hwb, hret⟩

theorem outcome_attempt (hm : ∀ t, final.frames t = []) (ha : (attempts k es)[i]? = some a) :
    outcomes es a.call = [(scripted m f v i).outcome] := by
  obtain ⟨b, key, ttl, -, hbc, -, -, -, -, -, -, hout⟩ := hc.returned_attempt h hm ha
  rw [← hbc]
  exact hout

theorem outcome_idle (h₀ : s₀.find? k = none)
    (hm : ∀ t, final.frames t = []) (hb : b ∈ callers k es)
    (hidle : ∀ a ∈ attempts k es, a.call ≠ b.call) :
    outcomes es b.call = [.ok (.value v)] ∧ (attempts k es).length = m + 1 := by
  obtain ⟨hbe, hf⟩ := mem_callers.1 hb
  obtain ⟨key, ttl, -, hwb, -⟩ := Timed.fetches_iff.1 hf
  obtain ⟨o, hret⟩ := h.returned hm hbe hwb
  obtain ⟨ns, hns⟩ : ∃ ns, ttl.toInteger = .ok ns := by
    have := hc.coercible b hb
    rw [hwb] at this
    cases httl : ttl.toInteger with
    | ok ns => exact ⟨ns, rfl⟩
    | error x => simp [Happening.coercible, httl, Except.toBool] at this
  obtain ⟨x, rfl⟩ := h.answered_of_idle
    (fun b' hb' ht => List.inj_on_of_nodup_map hc.threads hb' hb ht) hc.unswept hb hwb hns hidle
    hret
  obtain ⟨r, hr, rfl⟩ := h.stored_of_answer hc.kept hb hwb hret
  obtain ⟨rfl, hlen⟩ := hc.stored h h₀ hr
  obtain ⟨-, -, -, -, -, hout⟩ := hret
  exact ⟨hout, hlen⟩

theorem supplied (h₀ : s₀.find? k = none)
    (hm : ∀ t, final.frames t = []) : (attempts k es).length = min n (m + 1) := by
  have hle := hc.attempts_le h
  have hcount := (h.nodup_attempts.subperm (attempts_subset (k := k) h)).length_le
  rw [List.length_map, List.length_map, hc.count] at hcount
  by_contra hne
  -- else a caller without an attempt would have been answered all the same
  have hlt : (attempts k es).length < n := by omega
  obtain ⟨b, hb, hidle⟩ : ∃ b ∈ callers k es, ∀ a ∈ attempts k es, a.call ≠ b.call := by
    by_contra hno
    have hsub : (callers k es).map (·.call) ⊆ (attempts k es).map (·.call) := by
      intro c hcall
      obtain ⟨b, hb, rfl⟩ := List.mem_map.1 hcall
      by_contra ha
      exact hno ⟨b, hb, fun a ha' hac => ha (List.mem_map.2 ⟨a, ha', hac⟩)⟩
    have := (h.nodup_callers.subperm hsub).length_le
    rw [List.length_map, List.length_map, hc.count] at this
    omega
  have := (hc.outcome_idle h h₀ hm hb hidle).2
  omega

theorem tally (h₀ : s₀.find? k = none) (hm : ∀ t, final.frames t = []) :
    ((callers k es).flatMap fun b => outcomes es b.call).Perm
      ((List.range (min n m)).map (fun i => .error (f i)) ++
        List.replicate (n - m) (.ok (.value v))) := by
  have hlen := hc.supplied h h₀ hm
  have hperm := perm_of_subset h.nodup_callers h.nodup_attempts (attempts_subset (k := k) h)
  generalize hrest : ((callers k es).map (·.call)).filter _ = rest at hperm
  have hcount : n = (attempts k es).length + rest.length := by
    have := hperm.length_eq
    rwa [List.length_append, List.length_map, List.length_map, hc.count] at this
  have htried : ((attempts k es).map (·.call)).flatMap (outcomes es) =
      (List.range (attempts k es).length).map fun i => (scripted m f v i).outcome := by
    rw [List.flatMap_map]
    exact flatMap_eq_range fun i a ha => hc.outcome_attempt h hm ha
  have hidle : rest.flatMap (outcomes es) = List.replicate rest.length (.ok (.value v)) := by
    refine flatMap_eq_replicate fun c hcr => ?_
    rw [← hrest, List.mem_filter] at hcr
    obtain ⟨hcall, hno⟩ := hcr
    obtain ⟨b, hb, rfl⟩ := List.mem_map.1 hcall
    refine (hc.outcome_idle h h₀ hm hb fun a ha hac => ?_).1
    simp only [decide_eq_true_eq] at hno
    exact hno (List.mem_map.2 ⟨a, ha, hac⟩)
  have hall := hperm.flatMap_right (outcomes es)
  rw [List.flatMap_append, htried, hidle, List.flatMap_map] at hall
  refine hall.trans (.of_eq ?_)
  obtain hnm | hmn := Nat.lt_or_ge m n
  · have hfirst : (attempts k es).length = m + 1 := by omega
    have hsecond : n - m = rest.length + 1 := by omega
    have hfails : (List.range m).map (fun i => (scripted m f v i).outcome) =
        (List.range m).map fun i => .error (f i) := by
      exact List.map_congr_left fun i hi => outcome_scripted_of_lt (List.mem_range.1 hi)
    rw [hfirst, hsecond, Nat.min_eq_right (by omega), List.range_succ, List.map_append, hfails,
      List.map_singleton, outcome_scripted_of_le (Nat.le_refl m), List.replicate_succ,
      List.append_assoc, List.singleton_append]
  · have hfirst : (attempts k es).length = n := by omega
    have hsecond : rest.length = 0 := by omega
    rw [hfirst, hsecond, Nat.min_eq_left hmn, Nat.sub_eq_zero_of_le hmn]
    congr 1
    exact List.map_congr_left fun i hi =>
      outcome_scripted_of_lt (Nat.lt_of_lt_of_le (List.mem_range.1 hi) hmn)

theorem verdict (h₀ : s₀.find? k = none)
    (hm : ∀ t, final.frames t = []) : Verdict k n m f v es final := by
  have hlen := hc.supplied h h₀ hm
  constructor
  case supplied => exact hlen
  case own => exact ⟨h.nodup_attempts, fun a ha => h.caller_of_attempt ha⟩
  case raised =>
    intro i hi a ha
    rw [hc.outcome_attempt h hm ha, outcome_scripted_of_lt hi]
  case answered =>
    intro b hb hno
    by_cases hidle : ∀ a ∈ attempts k es, a.call ≠ b.call
    · exact (hc.outcome_idle h h₀ hm hb hidle).1
    · push Not at hidle
      obtain ⟨a, ha, hac⟩ := hidle
      obtain ⟨i, hi⟩ := List.mem_iff_getElem?.1 ha
      have him : m ≤ i := Nat.not_lt.1 fun him => hno i him a hi hac
      rw [← hac, hc.outcome_attempt h hm hi, outcome_scripted_of_le him]
  case tally => exact hc.tally h h₀ hm
  case present =>
    intro hlt
    have hmlt : m < (attempts k es).length := by omega
    obtain ⟨a, ha⟩ : ∃ a, (attempts k es)[m]? = some a := ⟨_, List.getElem?_eq_getElem hmlt⟩
    obtain ⟨b, key, ttl, hb, -, hwb, hret⟩ := hc.returned_attempt h hm ha
    rw [outcome_scripted_of_le (Nat.le_refl m)] at hret
    obtain ⟨r, hr, hv⟩ := h.stored_of_answer hc.kept hb hwb hret
    cases hv
    exact ⟨r, hr, rfl⟩
  case absent =>
    intro hle
    by_contra hcontains
    obtain ⟨r, hr⟩ : ∃ r, final.shared.store.find? k = some r := by
      cases hfind : final.shared.store.find? k with
      | some r => exact ⟨r, rfl⟩
      | none => exact absurd (Store.find?_eq_none_iff.1 hfind) hcontains
    have := (hc.stored h h₀ hr).2
    omega
  case pending => exact (h.trace.custody.idle hm).1
  case held => exact (h.trace.custody.idle hm).2

end Contest

theorem Run.episode {policy : Policy} {clock interval : Int} {g h : List Move} {m₀ m : Machine}
    (hg : Run (.start policy clock interval) g m₀) (h₀ : ∀ t, m₀.frames t = []) (hr : Run m₀ h m) :
    Machine.Episode policy clock interval m₀.shared.fresh m₀.shared.store (chronicle clock g)
      (chronicle m₀.shared.clock h) m := by
  have ha := hg.trace.account
  have ht := hr.trace_from ha.shaped
  exact ⟨hg.trace_append hr, ha.calls, (ht.recent h₀).events, hg.excused h₀ hr, ht.replays ha⟩

/-- However threads that fetch one absent key are interleaved, of `n` callers and `m` attempts that
fail before one succeeds, as many callers fail as there are failing attempts for them, each as its
own attempt, and the others get the value. -/
theorem Run.contested {policy : Policy} {clock interval : Int} {g h : List Move}
    {m₀ final : Machine} {k : Key} {n m : Nat} {f : Nat → Fault} {v : Value}
    (hg : Run (.start policy clock interval) g m₀) (h₀ : ∀ t, m₀.frames t = [])
    (hk : m₀.shared.store.contains k = false) (hr : Run m₀ h final)
    (hf : ∀ t, final.frames t = []) (hc : Contest k n m f v (chronicle m₀.shared.clock h)) :
    Verdict k n m f v (chronicle m₀.shared.clock h) final :=
  hc.verdict (hg.episode h₀ hr) (Store.find?_eq_none_iff.2 hk) hf

theorem Stacks.get_eq_nil {s : Stacks} (h : s.table.all (·.2.isEmpty) = true) (t : Tid) :
    s.get t = [] := by
  cases hl : s.table.lookup t with
  | none => simp [get, hl]
  | some fs =>
    obtain ⟨p, q, hs, -⟩ := List.lookup_eq_some_iff.1 hl
    have := List.all_eq_true.1 h (t, fs) (by simp [hs])
    simpa [get, hl] using this

def relay : List Label :=
  List.flatten [
    [.call 0 (.fetch (.int 1) (.int 5))], .replicate 8 (.step 0),
    [.call 1 (.fetch (.bool true) (.int 5))], .replicate 9 (.step 1),
    [.call 2 (.fetch (.int 1) (.int 5))], .replicate 9 (.step 2),
    [.reply 0 (.error (.raised .boom "no"))], .replicate 4 (.step 0),
    .replicate 7 (.step 1), .replicate 7 (.step 2),
    [.reply 1 (.ok (.text "v"))], .replicate 4 (.step 1), .replicate 7 (.step 2)]

def answersRelay : Nat → Reply → Bool
  | 0, .error (.raised .boom s) => s == "no"
  | 1, .ok (.text s) => s == "v"
  | _, _ => false

theorem scripted_of_answersRelay {i : Nat} {r : Reply} (h : answersRelay i r = true) :
    r = scripted 1 (fun _ => .raised .boom "no") (.text "v") i := by
  unfold answersRelay at h
  split at h
  · obtain rfl := beq_iff_eq.1 h
    rfl
  · obtain rfl := beq_iff_eq.1 h
    rfl
  · cases h

theorem contest_relay :
    Contest (.int 1) 3 1 (fun _ => .raised .boom "no") (.text "v")
      (chronicle 0 (Machine.perform (.start ⟨false, false⟩ 0 10) relay).1) where
  count := by decide +kernel
  threads := by decide +kernel
  coercible := by decide +kernel
  unswept := by decide +kernel
  kept := by decide +kernel
  script := by
    intro i _ a ha r hr
    have hall : ∀ p ∈ (attempts (.int 1) (chronicle 0
        (Machine.perform (.start ⟨false, false⟩ 0 10) relay).1)).zipIdx,
        ∀ r ∈ replies (chronicle 0 (Machine.perform (.start ⟨false, false⟩ 0 10) relay).1) p.1.call,
          answersRelay p.2 r = true := by decide +kernel
    exact scripted_of_answersRelay (hall (a, i) (List.mk_mem_zipIdx_iff_getElem?.2 ha) r hr)

theorem contested_relay :
    ∃ h final, Run (.start ⟨false, false⟩ 0 10) h final ∧
      Contest (.int 1) 3 1 (fun _ => .raised .boom "no") (.text "v") (chronicle 0 h) ∧
      Verdict (.int 1) 3 1 (fun _ => .raised .boom "no") (.text "v") (chronicle 0 h) final :=
  ⟨_, _, .perform _ relay, contest_relay,
    Run.contested .start (fun _ => rfl) rfl (.perform _ relay)
      (Stacks.get_eq_nil (by decide +kernel)) contest_relay⟩

end Lapse
