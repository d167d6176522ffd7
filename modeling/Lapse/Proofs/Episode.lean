import Lapse.Proofs.Causes
import Lapse.Proofs.Countdown
import Lapse.Proofs.SingleFlight

namespace Lapse

def Timed.fetches (k : Key) (e : Timed) : Bool :=
  match e.what with
  | .called (.fetch key _) =>
    match key.toKey e.call with
    | .ok k' => k'.same k
    | .error _ => false
  | _ => false

def Happening.supplies (k : Key) : Happening → Bool
  | asked (.supply k') => k'.same k
  | _ => false

def callers (k : Key) (es : List Timed) : List Timed := es.filter (·.fetches k)

def attempts (k : Key) (es : List Timed) : List Timed := es.filter (·.what.supplies k)

def outcomes (es : List Timed) (c : Nat) : List Outcome :=
  (trail es c).filterMap (·.what.returned?)

theorem Timed.fetches_iff {k : Key} {e : Timed} : e.fetches k = true ↔
    ∃ key ttl k', e.what = .called (.fetch key ttl) ∧ key.toKey e.call = .ok k' ∧
      k'.same k = true := by
  simp only [fetches]
  constructor
  · intro h
    split at h
    · split at h
      · exact ⟨_, _, _, ‹_›, ‹_›, h⟩
      · cases h
    · cases h
  · rintro ⟨key, ttl, k', hw, hk, hs⟩
    simp [hw, hk, hs]

theorem Happening.supplies_iff {k : Key} {x : Happening} : x.supplies k = true ↔
    ∃ k', x = .asked (.supply k') ∧ k'.same k = true := by
  cases x with
  | asked a => cases a <;> simp [supplies]
  | _ => simp [supplies]

theorem mem_callers {k : Key} {es : List Timed} {e : Timed} :
    e ∈ callers k es ↔ e ∈ es ∧ e.fetches k = true :=
  List.mem_filter

theorem mem_attempts {k : Key} {es : List Timed} {e : Timed} :
    e ∈ attempts k es ↔ e ∈ es ∧ e.what.supplies k = true :=
  List.mem_filter

theorem Point.Goes.supply_of_reply {s s' : Shared} {t : Tid} {call : Nat} {p : Point}
    {hs : List Happening} {c : Course Point} (h : p.Goes s t call hs s' c) {key ttl : Value}
    (hop : (Op.fetch key ttl).admits p = true) {r : Reply} (hr : .replied r ∈ hs) :
    ∃ k ns a, p = .fetch (.supply k ns a) := by
  cases h with
  | fetch h =>
    cases h with
    | supplied | unsupplied => exact ⟨_, _, _, rfl⟩
    | _ => simp at hr
  | erase | clear | sweep => cases hop
  | _ => simp at hr

namespace Machine

variable {policy : Policy} {clock interval : Int} {m : Machine} {es₀ es pre post : List Timed}
  {n : Nat} {k : Key} {s₀ : Store} {a b e : Timed} {key ttl v : Value} {o : Outcome}

theorem Trace.called_unique {op op' : Op} (h : Trace (.start policy clock interval) es m)
    (ha : a ∈ es) (hb : b ∈ es) (hwa : a.what = .called op) (hwb : b.what = .called op')
    (hc : a.call = b.call) : a = b := by
  obtain ⟨i, hi⟩ := List.mem_iff_getElem?.1 ha
  obtain ⟨j, hj⟩ := List.mem_iff_getElem?.1 hb
  have hij := h.called_before hi hj hwb hc
  have hji := h.called_before hj hi hwa hc.symm
  obtain rfl : i = j := by omega
  rw [hi] at hj
  exact Option.some.inj hj

theorem Trace.supply_means {k' : Key} (h : Trace (.start policy clock interval) es m)
    (ha : a ∈ es) (hw : a.what = .asked (.supply k')) (hb : b ∈ es) (hc : b.call = a.call)
    (hwb : b.what = .called (.fetch key ttl)) : key.toKey b.call = .ok k' := by
  obtain ⟨pre, post, hes⟩ := List.append_of_mem ha
  obtain ⟨key', ttl', n, hmeans, ⟨b', hb', -, hc', hw'⟩, -⟩ := h.supply_origin hes hw
  have hb' : b' ∈ es := by
    rw [hes]
    exact List.mem_append_left _ hb'
  obtain rfl := h.called_unique hb hb' hwb hw' (hc.trans hc'.symm)
  cases hwb.symm.trans hw'
  exact hc ▸ hmeans.key

theorem Trace.reply_origin (h : Trace (.start policy clock interval) es m)
    (he : es = pre ++ e :: post) {r : Reply} (hw : e.what = .replied r) (hb : b ∈ es)
    (hc : b.call = e.call) (hwb : b.what = .called (.fetch key ttl)) :
    ∃ x ∈ trail pre e.call, ∃ k', x.what = .asked (.supply k') := by
  cases h.origin he with
  | called op ho => simp [hw] at ho
  | returned o ho => simp [hw] at ho
  | @turn m es₀ op p s course hs hs' hstory _ _ hp _ hpre =>
    have hmem : .replied r ∈ hs ++ e.what :: hs' := by simp [hw]
    obtain ⟨b', hb', hc', hw'⟩ := hstory.mem_called
    have hb' : b' ∈ es := by
      rw [he, hpre]
      exact List.mem_append_left _ (List.mem_append_left _ hb')
    obtain rfl := h.called_unique hb hb' hwb hw' (hc.trans hc'.symm)
    cases hwb.symm.trans hw'
    obtain ⟨k', ns, c, rfl⟩ := hp.supply_of_reply hstory.admits hmem
    obtain ⟨htrail, -, ha⟩ : Asks k' (trail es₀ e.call) := hstory.converses
    refine ⟨_, ?_, k', ha⟩
    rw [hpre, trail_append, htrail]
    exact List.mem_append_left _ (List.mem_append_right _ List.mem_cons_self)

theorem Trace.fails (h : Trace (.start policy clock interval) es m) {p q r : List Timed}
    {k' : Key} (he : es = p ++ a :: (q ++ b :: r)) (ha : a.what = .asked (.supply k))
    (hb : b.what = .asked (.supply k')) (hs : k.same k' = true)
    (hd : ∀ e ∈ q, e.what.deletes k = false) :
    ∃ e ∈ q, e.call = a.call ∧ ∃ x, e.what = .replied (.error x) := by
  obtain ⟨⟨e, hq, hc, hland⟩, m₀, ht, habs⟩ := h.succeeds he ha hb hs
  obtain ⟨q₁, q₂, rfl⟩ := List.append_of_mem hq
  cases hw : e.what with
  | replied y =>
    cases y with
    | error x => exact ⟨e, hq, hc, x, hw⟩
    | ok v => simp [hw, Happening.lands] at hland
  | inserted k₁ y =>
    -- what was put would be there still
    obtain rfl : k₁ = k := by simpa [hw, Happening.lands] using hland
    have hrep := ht.account.replays
    rw [← List.cons_append, ← List.append_assoc] at hrep
    obtain ⟨s₁, s₂, -, hf, h₂⟩ := hrep.split_cons
    rw [hw] at hf
    obtain ⟨⟨z, hz, -⟩, -⟩ := h₂.lives hf.of_inserted fun x hx =>
      hd x (List.mem_append_right _ (List.mem_cons_of_mem _ hx))
    rw [Store.find?_eq_none_iff.2 habs] at hz
    cases hz
  | _ => simp [hw, Happening.lands] at hland

/-- What is shown since a machine at rest, where the store was this, and what came before. -/
structure Episode (policy : Policy) (clock interval : Int) (n : Nat) (s₀ : Store)
    (es₀ es : List Timed) (m : Machine) : Prop where
  trace : Trace (.start policy clock interval) (es₀ ++ es) m
  old : ∀ e ∈ es₀, e.call < n
  recent : ∀ e ∈ es, n ≤ e.call
  excused : m.Excused es
  replays : Store.Replays s₀ es m.shared.store

namespace Episode

theorem mem (h : Episode policy clock interval n s₀ es₀ es m) (ha : a ∈ es)
    (he : e ∈ es₀ ++ pre) (hc : e.call = a.call) : e ∈ pre := by
  obtain he | he := List.mem_append.1 he
  · have := h.old e he
    have := h.recent a ha
    omega
  · exact he

theorem mem_all (he : e ∈ es) : e ∈ es₀ ++ es := List.mem_append_right _ he

theorem split (hes : es = pre ++ e :: post) : es₀ ++ es = (es₀ ++ pre) ++ e :: post := by
  simp [hes]

theorem nodup_callers (h : Episode policy clock interval n s₀ es₀ es m) :
    ((callers k es).map (·.call)).Nodup := by
  refine List.pairwise_map.2 (List.pairwise_filter.2 (pairwise_of_split ?_))
  intro pre e post hes x hx _ he
  obtain ⟨key, ttl, k', hw, -⟩ := Timed.fetches_iff.1 he
  exact h.trace.call_origin (split hes) hw x (mem_all hx)

theorem nodup_attempts (h : Episode policy clock interval n s₀ es₀ es m) :
    ((attempts k es).map (·.call)).Nodup := by
  refine List.pairwise_map.2 (List.pairwise_filter.2 (pairwise_of_split ?_))
  intro pre e post hes x hx hxs he hc
  obtain ⟨k', hw, -⟩ := Happening.supplies_iff.1 he
  obtain ⟨k₁, hwx, -⟩ := Happening.supplies_iff.1 hxs
  obtain ⟨-, -, -, -, -, hsilent, -⟩ := h.trace.supply_origin (split hes) hw
  have := (hsilent x (mem_trail.2 ⟨mem_all hx, hc⟩)).1
  simp [hwx, Happening.asks] at this

theorem caller_of_attempt (h : Episode policy clock interval n s₀ es₀ es m)
    (ha : a ∈ attempts k es) : ∃ b ∈ callers k es, b.call = a.call := by
  obtain ⟨hmem, hs⟩ := mem_attempts.1 ha
  obtain ⟨k', hw, hsame⟩ := Happening.supplies_iff.1 hs
  obtain ⟨pre, post, hes⟩ := List.append_of_mem hmem
  obtain ⟨key, ttl, _, hmeans, ⟨b, hb, -, hc, hbw⟩, -⟩ := h.trace.supply_origin (split hes) hw
  have hbe : b ∈ es := by
    rw [hes]
    exact List.mem_append_left _ (h.mem hmem hb hc)
  have hfetch := Timed.fetches_iff.2 ⟨key, ttl, k', hbw, hc ▸ hmeans.key, hsame⟩
  exact ⟨b, mem_callers.2 ⟨hbe, hfetch⟩, hc⟩

theorem attempt_of_caller {k' : Key} (h : Episode policy clock interval n s₀ es₀ es m)
    (hb : b ∈ callers k es) (ha : a ∈ es) (hc : a.call = b.call)
    (hw : a.what = .asked (.supply k')) : a ∈ attempts k es := by
  obtain ⟨hmem, hf⟩ := mem_callers.1 hb
  obtain ⟨key, ttl, k₁, hwb, hk, hs⟩ := Timed.fetches_iff.1 hf
  have := h.trace.supply_means (mem_all ha) hw (mem_all hmem) hc.symm hwb
  cases hk.symm.trans this
  exact mem_attempts.2 ⟨ha, Happening.supplies_iff.2 ⟨_, hw, hs⟩⟩

inductive Returned (policy : Policy) (es₀ es : List Timed) (b : Timed) (key ttl : Value)
    (o : Outcome) : Prop
  | intro {pre post : List Timed} {e : Timed} : es = pre ++ e :: post → e.thread = b.thread →
    e.call = b.call → e.what = .returned o →
    Story policy b.thread b.call (.fetch key ttl) (es₀ ++ pre) (.done o) →
    outcomes es b.call = [o] → Returned policy es₀ es b key ttl o

theorem returned (h : Episode policy clock interval n s₀ es₀ es m)
    (hm : ∀ t, m.frames t = []) (hb : b ∈ es) (hw : b.what = .called (.fetch key ttl)) :
    ∃ o, Returned policy es₀ es b key ttl o := by
  obtain ⟨p, hl⟩ | ⟨e, he, hc, o, ho⟩ := h.trace.live_or_returned (mem_all hb) hw
  · simp [Live, hm] at hl
  have he := h.mem hb he hc
  obtain ⟨pre, post, hes⟩ := List.append_of_mem he
  obtain ⟨op, hstory⟩ := h.trace.return_origin (split hes) ho
  -- its story begins as this fetch did
  obtain ⟨now, l, htrail, -⟩ := hstory.trail_eq
  have hfirst : ⟨⟨e.thread, e.call, .called op⟩, now⟩ ∈ trail (es₀ ++ pre) e.call := by
    rw [htrail]
    exact List.mem_cons_self
  have hpre : ⟨⟨e.thread, e.call, .called op⟩, now⟩ ∈ es := by
    rw [hes]
    exact List.mem_append_left _ (h.mem he (mem_trail.1 hfirst).1 rfl)
  have hbe := h.trace.called_unique (mem_all hb) (mem_all hpre) hw rfl hc.symm
  have ht : e.thread = b.thread := by rw [hbe]
  have hop : op = .fetch key ttl := by
    rw [hbe] at hw
    cases hw
    rfl
  subst hop
  refine ⟨o, hes, ht, hc, ho, ht ▸ hc ▸ hstory, ?_⟩
  have hbefore : (trail pre b.call).filterMap (·.what.returned?) = [] := by
    rw [List.filterMap_eq_nil_iff]
    intro x hx
    refine hstory.not_returned x ?_
    rw [trail_append, hc]
    exact List.mem_append_right _ hx
  have hafter : (trail post b.call).filterMap (·.what.returned?) = [] := by
    rw [List.filterMap_eq_nil_iff]
    intro x hx
    obtain ⟨hx, hxc⟩ := mem_trail.1 hx
    obtain ⟨p, q, rfl⟩ := List.append_of_mem hx
    cases hwx : x.what with
    | returned o' =>
      have hsplit : es₀ ++ es = (es₀ ++ (pre ++ e :: p)) ++ x :: q := by simp [hes]
      obtain ⟨op', hstory'⟩ := h.trace.return_origin hsplit hwx
      have := hstory'.not_returned e (mem_trail.2 ⟨by simp, by rw [hc, hxc]⟩)
      simp [ho, Happening.returned?] at this
    | _ => rfl
  have hone : trail [e] b.call = [e] := List.filter_eq_self.2 (by simp [hc])
  rw [outcomes, hes, ← List.singleton_append, trail_append, trail_append, List.filterMap_append,
    List.filterMap_append, hbefore, hafter, hone]
  simp [ho, Happening.returned?]

theorem outcome_of_attempt (h : Episode policy clock interval n s₀ es₀ es m)
    (hr : Returned policy es₀ es b key ttl o) (ha : a ∈ attempts k es) (hc : a.call = b.call) :
    ∃ y ∈ es, y.call = a.call ∧ ∃ r, y.what = .replied r ∧ o = r.outcome := by
  obtain @⟨pre, post, e, hes, -, hec, hew, hstory, -⟩ := hr
  obtain ⟨hmem, hs⟩ := mem_attempts.1 ha
  obtain ⟨k', hw, -⟩ := Happening.supplies_iff.1 hs
  have hpre : a ∈ pre := by
    have hmem' := hmem
    rw [hes] at hmem'
    obtain hp | hp := List.mem_append.1 hmem'
    · exact hp
    obtain rfl | hp := List.mem_cons.1 hp
    · simp [hew] at hw
    · -- nothing is asked after the return
      obtain ⟨p, q, rfl⟩ := List.append_of_mem hp
      have hsplit : es₀ ++ es = (es₀ ++ (pre ++ e :: p)) ++ a :: q := by simp [hes]
      obtain ⟨-, -, -, -, -, -, hno⟩ := h.trace.supply_origin hsplit hw
      have := hno e (mem_trail.2 ⟨by simp, hec.trans hc.symm⟩)
      simp [hew, Happening.returned?] at this
  obtain hsilent | ⟨k₁, r, hlearn, rfl⟩ := hstory.converses
  · have := (hsilent a (mem_trail.2 ⟨mem_all hpre, hc⟩)).1
    simp [hw, Happening.asks] at this
  · obtain ⟨-, y, hy, hwy⟩ := hlearn.mem
    obtain ⟨hy, hyc⟩ := mem_trail.1 hy
    refine ⟨y, ?_, hyc.trans hc.symm, r, hwy, rfl⟩
    rw [hes]
    exact List.mem_append_left _ (h.mem hmem hy (hyc.trans hc.symm))

theorem attempt_of_insertion (h : Episode policy clock interval n s₀ es₀ es m) (he : e ∈ es)
    {k' : Key} {r : Record} (hw : e.what = .inserted k' r) (hs : k'.same k = true) :
    ∃ a ∈ attempts k es, ∃ y ∈ es, y.call = a.call ∧ y.what = .replied (.ok r.value) := by
  obtain ⟨pre, post, hes⟩ := List.append_of_mem he
  obtain ⟨key, ttl, k₁, n, -, -, hk, hput⟩ :=
    (h.trace.origin (split hes)).puts (r := r) (by simp [hw, Happening.written?])
  obtain rfl : k' = k₁ := by simpa [hw, Happening.touched?] using hk
  cases hput with
  | renewed hr => simp [hw] at hr
  | @inserted l a y _ hl ha hy _ =>
    have new : ∀ x ∈ trail (es₀ ++ pre) e.call, x ∈ es ∧ x.call = e.call := by
      intro x hx
      obtain ⟨hx, hc⟩ := mem_trail.1 hx
      rw [hes]
      exact ⟨List.mem_append_left _ (h.mem he hx hc), hc⟩
    obtain ⟨hae, hac⟩ := new a (by simp [hl])
    obtain ⟨hye, hyc⟩ := new y (by simp [hl])
    exact ⟨a, mem_attempts.2 ⟨hae, Happening.supplies_iff.2 ⟨k', ha, hs⟩⟩, y, hye,
      hyc.trans hac.symm, hy⟩

theorem attempt_of_stored (h : Episode policy clock interval n s₀ es₀ es m)
    (h₀ : s₀.find? k = none) {r : Record} (hr : m.shared.store.find? k = some r) :
    ∃ a ∈ attempts k es, ∃ y ∈ es, y.call = a.call ∧ y.what = .replied (.ok r.value) := by
  obtain ⟨p, e, q, k', r', hes, hw, hs, hv, -⟩ := h.replays.born h₀ hr
  rw [← hv]
  exact h.attempt_of_insertion (by simp [hes]) hw hs

theorem stored_of_answer (h : Episode policy clock interval n s₀ es₀ es m)
    (hd : ∀ e ∈ es, e.what.deletes k = false) (hb : b ∈ callers k es)
    (hw : b.what = .called (.fetch key ttl)) {x : Answer}
    (hr : Returned policy es₀ es b key ttl (.ok x)) :
    ∃ r, m.shared.store.find? k = some r ∧ x = .value r.value := by
  obtain ⟨hmem, hf⟩ := mem_callers.1 hb
  obtain ⟨key', ttl', k', hwb, hk, hs⟩ := Timed.fetches_iff.1 hf
  cases hw.symm.trans hwb
  obtain @⟨pre, post, e, hes, -, -, -, hstory, -⟩ := hr
  obtain ⟨v, rfl, @⟨k₁, ns, l₁, l₂, w, r, hmeans, htrail, -, hput, -, hv⟩⟩ := hstory.fetches
  cases hk.symm.trans hmeans.key
  -- the record that it put was there then, and has been since
  have hwt : w ∈ trail (es₀ ++ pre) b.call := by simp [htrail]
  obtain ⟨hwmem, hwc⟩ := mem_trail.1 hwt
  obtain ⟨p, q, hpq⟩ := List.append_of_mem (h.mem hmem hwmem hwc)
  have hall : es = p ++ w :: (q ++ e :: post) := by simp [hes, hpq]
  obtain ⟨s₁, s₂, -, hfol, h₂⟩ := (hall ▸ h.replays).split_cons
  have hfound : s₂.find? k = some r := by
    rw [← Store.find?_congr s₂ hs]
    cases hput with
    | renewed hwr =>
      obtain ⟨_, _, hx, -⟩ | ⟨_, _, _, hx, -, -, -, hr⟩ | ⟨_, _, hx, -⟩ :=
        hfol.touching (k := k') (by simp [hwr, Key.same_refl])
      · simp [hwr] at hx
      · rw [hwr] at hx
        cases hx
        exact hr
      · simp [hwr] at hx
    | inserted hwr _ _ _ _ =>
      rw [hwr] at hfol
      exact hfol.of_inserted
  obtain ⟨⟨r', hr', hv'⟩, -⟩ := h₂.lives hfound fun x hx => hd x (by
    rw [hall]
    exact List.mem_append_right _ (List.mem_cons_of_mem _ hx))
  exact ⟨r', hr', by rw [hv', hv]⟩

theorem answered_of_idle (h : Episode policy clock interval n s₀ es₀ es m)
    (hthreads : ∀ b' ∈ callers k es, b'.thread = b.thread → b' = b)
    (hp : ∀ e ∈ es, e.what.passed? = none) (hb : b ∈ callers k es)
    (hw : b.what = .called (.fetch key ttl)) {ns : Int} (httl : ttl.toInteger = .ok ns)
    (hidle : ∀ a ∈ attempts k es, a.call ≠ b.call) (hr : Returned policy es₀ es b key ttl o) :
    ∃ x, o = .ok x := by
  obtain ⟨hmem, hf⟩ := mem_callers.1 hb
  obtain ⟨key', ttl', k', hwb, hk, hs⟩ := Timed.fetches_iff.1 hf
  cases hw.symm.trans hwb
  obtain @⟨pre, post, e, hes, ht, hc, hew, hstory, -⟩ := hr
  cases o with
  | ok x => exact ⟨x, rfl⟩
  | error f =>
    exfalso
    have hcause : Cause es b.thread b.call key ttl f := by
      rw [← ht, ← hc]
      exact h.excused.returned (by simp [hes]) hew ⟨b, hmem, hc.symm, hw⟩
    cases hcause with
    | refused hx => simp [httl] at hx
    | unkeyed hx => simp [hk] at hx
    | @unsupplied y hy hyc hyw =>
      obtain ⟨p, q, hpq⟩ := List.append_of_mem hy
      obtain ⟨x, hx, k₁, hxw⟩ :=
        h.trace.reply_origin (split hpq) hyw (mem_all hmem) hyc.symm hw
      obtain ⟨hx, hxc⟩ := mem_trail.1 hx
      have hxe : x ∈ es := by
        rw [hpq]
        exact List.mem_append_left _ (h.mem hy hx hxc)
      exact hidle x (h.attempt_of_caller hb hxe (hxc.trans hyc) hxw) (hxc.trans hyc)
    | recursive _ hk₁ hb' ht' hne hw' hk' hs' =>
      cases hk.symm.trans hk₁
      have hcaller := mem_callers.2 ⟨hb', Timed.fetches_iff.2
        ⟨_, _, _, hw', hk', Key.same_trans hs' hs⟩⟩
      exact hne (congrArg (·.call) (hthreads _ hcaller ht'))
    | @swept y _ hy hpass =>
      have := hp y hy
      simp [hpass, Happening.passed?] at this

end Episode

end Machine

end Lapse
