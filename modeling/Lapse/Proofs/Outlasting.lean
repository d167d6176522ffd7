import Lapse.Proofs.Equality
import Lapse.Proofs.Sitting

namespace Lapse

inductive Op.NoLonger : Op → Op → Prop
  | same (op : Op) : NoLonger op op
  | fetch {key ttl ttl' : Value} {ns ns' : Int} : ttl.toInteger = .ok ns →
    ttl'.toInteger = .ok ns' → ns ≤ ns' → NoLonger (.fetch key ttl) (.fetch key ttl')

theorem Op.NoLonger.toInteger {key ttl ttl' : Value}
    (h : (Op.fetch key ttl).NoLonger (.fetch key ttl')) :
    (∃ f, ttl.toInteger = .error f ∧ ttl'.toInteger = .error f) ∨
      ∃ ns ns', ttl.toInteger = .ok ns ∧ ttl'.toInteger = .ok ns' ∧ ns ≤ ns' := by
  cases h with
  | same =>
    cases hn : ttl.toInteger with
    | error f => exact .inl ⟨f, rfl, rfl⟩
    | ok ns => exact .inr ⟨ns, ns, rfl, rfl, Int.le_refl ns⟩
  | fetch hn hn' hle => exact .inr ⟨_, _, hn, hn', hle⟩

def Op.Proper : Op → Prop
  | .fetch key _ | .erase key => ∀ c k, key.toKey c = .ok k → k.isProper = true
  | _ => True

def Op.Keyed : Op → Prop
  | .erase key => ∀ c, ∃ k, key.toKey c = .ok k
  | _ => True

structure Demand.NoLonger (d d' : Demand) : Prop where
  clock : d.clock = d'.clock
  op : d.op.NoLonger d'.op

/-- The second call did as the first, and left what the first left, for no shorter. -/
structure Service.OutlastedBy (host : Host) (x x' : Service) : Prop where
  passes : x.passes = x'.passes
  kept : ∀ k r, x.left.store.find? k = some r → ∃ r', x'.left.store.find? k = some r' ∧
    r.value = r'.value ∧ r.deadline ≤ r'.deadline
  answers : ∀ key ttl, x.op = .fetch key ttl → ∃ o, x.outcomes = [o] ∧ x'.outcomes = [o] ∧
    ∀ k ns, key.toKey x.call = .ok k → ttl.toInteger = .ok ns → o = .ok (.value (host.supply k))
  supplied : x'.supplied.Sublist x.supplied

def Ledger.SuppliedBy (host : Host) (l : Ledger) : Prop :=
  ∀ s ∈ l.slots, s.value = host.supply s.key

/-- The first ledger's slots are among the second's, and run out no later. -/
structure Ledger.Within (host : Host) (l l' : Ledger) : Prop where
  interval : l.interval = l'.interval
  due : l.due = l'.due
  covered : ∀ s ∈ l.slots, ∃ s' ∈ l'.slots, s'.key.same s.key = true ∧ s.deadline ≤ s'.deadline
  supplied : l.SuppliedBy host
  supplied' : l'.SuppliedBy host

structure Served.Beside (host : Host) (op : Op) (y y' : Served) : Prop where
  passes : y.passes = y'.passes
  outcome : ∀ key ttl, op = .fetch key ttl → y.outcome = y'.outcome
  supplied : y'.supplied.Sublist y.supplied
  ledger : y.ledger.Within host y'.ledger

theorem Served.Beside.other {host : Host} {op : Op} {y y' : Served}
    (hop : ∀ key ttl, op ≠ .fetch key ttl) (hpasses : y.passes = y'.passes)
    (hsupplied : y'.supplied = []) (hledger : y.ledger.Within host y'.ledger) :
    y.Beside host op y' :=
  ⟨hpasses, fun key ttl h => absurd h (hop key ttl), hsupplied ▸ List.nil_sublist _, hledger⟩

theorem Value.toKey_eq {v : Value} (h : ∀ c k, v.toKey c = .ok k → k.isProper = true)
    (c c' : Nat) : v.toKey c = v.toKey c' := by
  have hmap := Key.map_toValue_ofValue c c' v
  unfold toKey at h ⊢
  cases hk : Key.ofValue c v with
  | ok k => rw [Key.ofValue_of_isProper hk (h c k (by rw [hk])) c']
  | error what =>
    rw [hk] at hmap
    cases hk' : Key.ofValue c' v with
    | ok k => simp [hk', Except.map] at hmap
    | error what' =>
      simp only [hk', Except.map, Except.error.injEq] at hmap
      rw [hmap]

namespace Ledger

variable {host : Host} {policy : Policy} {now : Int} {l l' : Ledger} {k : Key} {d d' : Int}

theorem mem_renew {s : Slot} : s ∈ (l.renew k d).slots ↔
    ∃ s₀ ∈ l.slots, (if s₀.key.same k then { s₀ with deadline := d } else s₀) = s :=
  List.mem_map

theorem same_eq_false_of_find? {s : Slot} (h : l.find? k = none) (hs : s ∈ l.slots) :
    s.key.same k = false := by
  simpa using List.find?_eq_none.1 h s hs

theorem same_of_find? {s : Slot} (h : l.find? k = some s) : s.key.same k = true :=
  List.find?_some (p := fun s : Slot => s.key.same k) h

theorem dropped_of_toKey {key : Value} {c : Nat} (hk : key.toKey c = .ok k) :
    l.dropped host policy now c key =
      ⟨l.passes now, [], .ok .unit, (l.erase k).swept host policy now⟩ := by
  unfold dropped
  cases he : l.slots.isEmpty with
  | true =>
    have hnil : l.find? k = none := by simp [find?, List.isEmpty_iff.1 he]
    simp [erase_of_find?_eq_none hnil]
  | false => simp [hk]

namespace SuppliedBy

theorem find? (h : l.SuppliedBy host) {s : Slot} (hs : l.find? k = some s) :
    s.value = host.supply k := by
  rw [h s (List.mem_of_find?_eq_some hs), host.supply_congr (same_of_find? hs)]

theorem filter (h : l.SuppliedBy host) (p : Slot → Bool) (interval due : Int) :
    SuppliedBy host ⟨l.slots.filter p, interval, due⟩ :=
  fun s hs => h s (List.mem_filter.1 hs).1

theorem renew (h : l.SuppliedBy host) : (l.renew k d).SuppliedBy host := by
  intro s hs
  obtain ⟨s₀, hs₀, rfl⟩ := mem_renew.1 hs
  split <;> exact h s₀ hs₀

theorem append (h : l.SuppliedBy host) : (l.append ⟨k, host.supply k, d⟩).SuppliedBy host := by
  intro s hs
  obtain hs | hs := List.mem_append.1 hs
  · exact h s hs
  · rw [List.mem_singleton.1 hs]

end SuppliedBy

namespace Within

theorem passes (h : l.Within host l') (now : Int) : l.passes now = l'.passes now := by
  simp only [Ledger.passes, h.due]

theorem find?_eq_none (h : l.Within host l') (hk : l'.find? k = none) : l.find? k = none := by
  refine List.find?_eq_none.2 fun s hs => ?_
  obtain ⟨s', hs', hsame, -⟩ := h.covered s hs
  simp [← Key.same_congr_left hsame, same_eq_false_of_find? hk hs']

theorem swept (h : l.Within host l') :
    (l.swept host policy now).Within host (l'.swept host policy now) := by
  unfold Ledger.swept
  rw [← h.due, ← h.interval]
  split
  · exact h
  · constructor
    case interval => rfl
    case due => rfl
    case covered =>
      intro s hs
      obtain ⟨hmem, hspared⟩ := List.mem_filter.1 hs
      obtain ⟨s', hs', hsame, hle⟩ := h.covered s hmem
      refine ⟨s', List.mem_filter.2 ⟨hs', ?_⟩, hsame, hle⟩
      have hvalue : s'.value = s.value := by
        rw [h.supplied' s' hs', h.supplied s hmem, host.supply_congr hsame]
      simp only [Host.spares, hvalue] at hspared ⊢
      by_cases hlate : s'.deadline < now
      · simpa [hlate, show s.deadline < now by omega] using hspared
      · simp [hlate]
    case supplied => exact h.supplied.filter _ _ _
    case supplied' => exact h.supplied'.filter _ _ _

theorem erase (h : l.Within host l') (k : Key) : (l.erase k).Within host (l'.erase k) := by
  constructor
  case interval => exact h.interval
  case due => exact h.due
  case covered =>
    intro s hs
    obtain ⟨hmem, hother⟩ := List.mem_filter.1 hs
    obtain ⟨s', hs', hsame, hle⟩ := h.covered s hmem
    rw [← Key.same_congr_left hsame] at hother
    exact ⟨s', List.mem_filter.2 ⟨hs', hother⟩, hsame, hle⟩
  case supplied => exact h.supplied.filter _ _ _
  case supplied' => exact h.supplied'.filter _ _ _

theorem renew (h : l.Within host l') (hle : d ≤ d') :
    (l.renew k d).Within host (l'.renew k d') := by
  constructor
  case interval => exact h.interval
  case due => exact h.due
  case covered =>
    intro s hs
    obtain ⟨s₀, hs₀, rfl⟩ := mem_renew.1 hs
    obtain ⟨s', hs', hsame, hle'⟩ := h.covered s₀ hs₀
    refine ⟨_, mem_renew.2 ⟨s', hs', rfl⟩, ?_⟩
    rw [Key.same_congr_left hsame]
    split
    · exact ⟨hsame, hle⟩
    · exact ⟨hsame, hle'⟩
  case supplied => exact h.supplied.renew
  case supplied' => exact h.supplied'.renew

theorem append (h : l.Within host l') (hle : d ≤ d') :
    (l.append ⟨k, host.supply k, d⟩).Within host (l'.append ⟨k, host.supply k, d'⟩) := by
  constructor
  case interval => exact h.interval
  case due => exact h.due
  case covered =>
    intro s hs
    obtain hs | hs := List.mem_append.1 hs
    · obtain ⟨s', hs', hsame⟩ := h.covered s hs
      exact ⟨s', List.mem_append_left _ hs', hsame⟩
    · rw [List.mem_singleton.1 hs]
      exact ⟨_, List.mem_append_right _ (List.mem_singleton_self _), Key.same_refl k, hle⟩
  case supplied => exact h.supplied.append
  case supplied' => exact h.supplied'.append

theorem append_renew (h : l.Within host l') (hk : l.find? k = none)
    {s₁ : Slot} (hs₁ : l'.find? k = some s₁) (hle : d ≤ d') :
    (l.append ⟨k, host.supply k, d⟩).Within host (l'.renew k d') := by
  constructor
  case interval => exact h.interval
  case due => exact h.due
  case covered =>
    intro s hs
    obtain hs | hs := List.mem_append.1 hs
    · obtain ⟨s', hs', hsame, hle'⟩ := h.covered s hs
      have hother : s'.key.same k = false :=
        (Key.same_congr_left hsame k).trans (same_eq_false_of_find? hk hs)
      exact ⟨s', mem_renew.2 ⟨s', hs', by simp [hother]⟩, hsame, hle'⟩
    · have hsame := same_of_find? hs₁
      rw [List.mem_singleton.1 hs]
      exact ⟨{ s₁ with deadline := d' },
        mem_renew.2 ⟨s₁, List.mem_of_find?_eq_some hs₁, by simp [hsame]⟩, hsame, hle⟩
  case supplied => exact h.supplied.append
  case supplied' => exact h.supplied'.renew

theorem fetched {key ttl ttl' : Value} {c c' : Nat} (h : l.Within host l')
    (hkey : key.toKey c = key.toKey c') (httl : (Op.fetch key ttl).NoLonger (.fetch key ttl')) :
    (l.fetched host policy now c key ttl).Beside host (.fetch key ttl)
      (l'.fetched host policy now c' key ttl') := by
  have hswept : (l.swept host policy now).Within host (l'.swept host policy now) := h.swept
  unfold Ledger.fetched
  rw [hkey, h.passes now]
  obtain ⟨f, hn, hn'⟩ | ⟨ns, ns', hn, hn', hle⟩ := httl.toInteger
  · simp only [hn, hn']
    exact ⟨rfl, fun _ _ _ => rfl, .refl _, h⟩
  · simp only [hn, hn']
    cases key.toKey c' with
    | error f => exact ⟨rfl, fun _ _ _ => rfl, .refl _, hswept⟩
    | ok k =>
      have hdeadline : now + ns ≤ now + ns' := by omega
      cases hs' : (l'.swept host policy now).find? k with
      | none =>
        simp only [hswept.find?_eq_none hs', hs']
        exact ⟨rfl, fun _ _ _ => rfl, .refl _, hswept.append hdeadline⟩
      | some s' =>
        have hvalue' := hswept.supplied'.find? hs'
        cases hs : (l.swept host policy now).find? k with
        | none =>
          simp only [hs, hs', hvalue']
          exact ⟨rfl, fun _ _ _ => rfl, List.nil_sublist _, hswept.append_renew hs hs' hdeadline⟩
        | some s =>
          simp only [hs, hs', hvalue', hswept.supplied.find? hs]
          exact ⟨rfl, fun _ _ _ => rfl, .refl _, hswept.renew hdeadline⟩

theorem outcome_fetched {key ttl : Value} {c : Nat} {ns : Int} (h : l.Within host l')
    (hn : ttl.toInteger = .ok ns) (hk : key.toKey c = .ok k) :
    (l.fetched host policy now c key ttl).outcome = .ok (.value (host.supply k)) := by
  have hswept : (l.swept host policy now).Within host (l'.swept host policy now) := h.swept
  unfold Ledger.fetched
  simp only [hn, hk]
  cases hs : (l.swept host policy now).find? k with
  | none => rfl
  | some s => simp only [hswept.supplied.find? hs]

theorem dropped {key : Value} {c c' : Nat} (h : l.Within host l') (hk : key.toKey c = .ok k)
    (hk' : key.toKey c' = .ok k) : (l.dropped host policy now c key).Beside host (.erase key)
      (l'.dropped host policy now c' key) := by
  rw [dropped_of_toKey hk, dropped_of_toKey hk', h.passes now]
  exact .other (by simp) rfl rfl (h.erase k).swept

theorem serve {op op' : Op} {c c' : Nat} (h : l.Within host l') (hop : op.NoLonger op')
    (hp : op.Proper) (hk : op.Keyed) : (l.serve host policy now c op).Beside host op
      (l'.serve host policy now c' op') := by
  cases hop with
  | fetch hn hn' hle => exact h.fetched (Value.toKey_eq hp c c') (.fetch hn hn' hle)
  | same op =>
    cases op with
    | fetch key ttl => exact h.fetched (Value.toKey_eq hp c c') (.same _)
    | erase key =>
      obtain ⟨k, hkey⟩ := hk c
      exact h.dropped hkey ((Value.toKey_eq hp c' c).trans hkey)
    | clear =>
      exact .other (by simp) rfl rfl ⟨h.interval, h.due, List.forall_mem_nil _,
        List.forall_mem_nil _, List.forall_mem_nil _⟩
    | sweep => exact .other (by simp) (h.passes now) rfl h.swept
    | setInterval ns =>
      simp only [Ledger.serve]
      cases ns.toInteger with
      | error f => exact .other (by simp) rfl rfl h
      | ok n =>
        exact .other (by simp) rfl rfl ⟨rfl, rfl, h.covered, h.supplied, h.supplied'⟩
    | _ => exact .other (by simp) rfl rfl h

theorem find? {s s' : Shared} (h : s.ledger.Within host s'.ledger) (hd : s'.store.Distinct)
    {r : Record} (hr : s.store.find? k = some r) : ∃ r', s'.store.find? k = some r' ∧
      r.value = r'.value ∧ r.deadline ≤ r'.deadline := by
  obtain ⟨key, hl⟩ := Shared.ledger_find? hr
  have hmem := List.mem_of_find?_eq_some hl
  obtain ⟨s₁, hs₁, hsame, hle⟩ := h.covered _ hmem
  obtain ⟨e, he, rfl⟩ := List.mem_map.1 hs₁
  refine ⟨e.record, ?_, ?_, hle⟩
  · rw [← hd.find?_of_mem he, Store.find?_congr _ (Key.same_trans hsame (same_of_find? hl))]
  · calc r.value = host.supply key := h.supplied _ hmem
      _ = host.supply e.key := (host.supply_congr hsame).symm
      _ = e.record.value := (h.supplied' _ hs₁).symm

end Within

end Ledger

structure Machine.Beside (host : Host) (policy : Policy) (t t' : Tid) (m m' : Machine) : Prop where
  idle : m.Idle policy t
  idle' : m'.Idle policy t'
  within : m.shared.ledger.Within host m'.shared.ledger

theorem Machine.Beside.start (host : Host) (policy : Policy) (t t' : Tid) (clock interval : Int) :
    Machine.Beside host policy t t' (.start policy clock interval)
      (.start policy clock interval) :=
  ⟨.start .., .start .., ⟨rfl, rfl, List.forall_mem_nil _, List.forall_mem_nil _,
    List.forall_mem_nil _⟩⟩

theorem Machine.Beside.serves {host : Host} {policy : Policy} {t t' : Tid} {m m' m₁ m₁' : Machine}
    {x x' : Service} (h : m.Beside host policy t t' m') (hx : Serves host t m x m₁)
    (hx' : Serves host t' m' x' m₁') (hl : x.toDemand.NoLonger x'.toDemand) (hp : x.op.Proper)
    (hk : x.op.Keyed) : x.OutlastedBy host x' ∧ m₁.Beside host policy t t' m₁' := by
  obtain ⟨hcomes, hidle, hleft⟩ := hx.comes h.idle
  obtain ⟨hcomes', hidle', hleft'⟩ := hx'.comes h.idle'
  have hbeside : (m.shared.ledger.serve host policy x.clock x.call x.op).Beside host x.op
      (m'.shared.ledger.serve host policy x.clock x'.call x'.op) :=
    h.within.serve hl.op hp hk
  rw [← hl.clock] at hcomes'
  have hwithin : x.left.ledger.Within host x'.left.ledger := by
    rw [hcomes.ledger, hcomes'.ledger]
    exact hbeside.ledger
  refine ⟨?_, hidle, hidle', ?_⟩
  · constructor
    case passes => rw [hcomes.passes, hcomes'.passes, hbeside.passes]
    case kept =>
      have hdistinct : x'.left.store.Distinct := hleft' ▸ hidle'.tidy.distinct
      exact fun k r hr => hwithin.find? hdistinct hr
    case answers =>
      intro key ttl hop
      refine ⟨_, hcomes.outcomes, ?_, fun k ns hkey hn => ?_⟩
      · rw [hcomes'.outcomes, hbeside.outcome key ttl hop]
      · rw [hop]
        exact h.within.outcome_fetched hn hkey
    case supplied =>
      rw [hcomes.supplied, hcomes'.supplied]
      exact hbeside.supplied
  · rw [hleft, hleft']
    exact hwithin

theorem Machine.Beside.sitting {host : Host} {policy : Policy} {t t' : Tid} {m m' : Machine}
    {xs xs' : List Service} (h : m.Beside host policy t t' m') (hxs : Sitting host t m xs)
    (hxs' : Sitting host t' m' xs')
    (hl : List.Forall₂ Demand.NoLonger (xs.map (·.toDemand)) (xs'.map (·.toDemand)))
    (hp : ∀ x ∈ xs, x.op.Proper ∧ x.op.Keyed) :
    List.Forall₂ (Service.OutlastedBy host) xs xs' := by
  induction hxs generalizing m' xs' with
  | nil =>
    cases hxs' with
    | nil => exact .nil
    | cons => cases hl
  | cons hx _ ih =>
    cases hxs' with
    | nil => cases hl
    | cons hx' hxs' =>
      obtain ⟨hfirst, hrest⟩ := List.forall₂_cons.1 hl
      obtain ⟨hproper, hkeyed⟩ := hp _ List.mem_cons_self
      obtain ⟨houtlasts, hbeside⟩ := h.serves hx hx' hfirst hproper hkeyed
      exact .cons houtlasts
        (ih hbeside hxs' hrest fun x hx => hp x (List.mem_cons_of_mem _ hx))

/-- Both sessions can be held, however they are held the second outlasts the first. -/
theorem Sitting.outlasted (host : Host) (policy : Policy) (clock interval : Int) (t t' : Tid)
    {ds ds' : List Demand} (hl : List.Forall₂ Demand.NoLonger ds ds')
    (hp : ∀ d ∈ ds, d.op.Proper ∧ d.op.Keyed) :
    (∃ xs, Sitting host t (.start policy clock interval) xs ∧ xs.map (·.toDemand) = ds) ∧
      (∃ xs', Sitting host t' (.start policy clock interval) xs' ∧
        xs'.map (·.toDemand) = ds') ∧
      ∀ xs xs', Sitting host t (.start policy clock interval) xs →
        Sitting host t' (.start policy clock interval) xs' → xs.map (·.toDemand) = ds →
        xs'.map (·.toDemand) = ds' → List.Forall₂ (Service.OutlastedBy host) xs xs' := by
  refine ⟨exists_of_idle host (.start ..) ds, exists_of_idle host (.start ..) ds', ?_⟩
  rintro xs xs' hxs hxs' rfl rfl
  exact (Machine.Beside.start host policy t t' clock interval).sitting hxs hxs' hl
    fun x hx => hp _ (List.mem_map_of_mem hx)

def Host.steady : Host := ⟨fun _ => .text "A", fun _ => true, fun _ => rfl⟩

def returns (ttl : Int) : List Demand :=
  [⟨0, .fetch (.text "a") (.int ttl)⟩, ⟨20, .sweep⟩, ⟨25, .fetch (.text "a") (.int ttl)⟩,
    ⟨60, .erase (.text "a")⟩, ⟨65, .fetch (.text "a") (.text "7")⟩]

theorem noLonger_returns : List.Forall₂ Demand.NoLonger (returns 5) (returns 50) :=
  .cons ⟨rfl, .fetch rfl rfl (by decide)⟩ <| .cons ⟨rfl, .same _⟩ <|
    .cons ⟨rfl, .fetch rfl rfl (by decide)⟩ <| .cons ⟨rfl, .same _⟩ <| .cons ⟨rfl, .same _⟩ .nil

theorem keyed_returns (ttl : Int) : ∀ d ∈ returns ttl, d.op.Proper ∧ d.op.Keyed := by
  simp [returns, Op.Proper, Op.Keyed, Value.toKey, Key.ofValue, Key.isProper]

theorem outlasted_returns :
    List.Forall₂ Demand.NoLonger (returns 5) (returns 50) ∧
      (∀ d ∈ returns 5, d.op.Proper ∧ d.op.Keyed) ∧
      ∃ xs xs', Sitting .steady 0 (.start ⟨true, true⟩ 0 10) xs ∧
        Sitting .steady 0 (.start ⟨true, true⟩ 0 10) xs' ∧ xs.map (·.toDemand) = returns 5 ∧
        xs'.map (·.toDemand) = returns 50 ∧ List.Forall₂ (Service.OutlastedBy .steady) xs xs' := by
  obtain ⟨⟨xs, hxs, hds⟩, ⟨xs', hxs', hds'⟩, houtlasts⟩ :=
    Sitting.outlasted .steady ⟨true, true⟩ 0 10 0 0 noLonger_returns (keyed_returns 5)
  exact ⟨noLonger_returns, keyed_returns 5, xs, xs', hxs, hxs', hds, hds',
    houtlasts xs xs' hxs hxs' hds hds'⟩

def slips (ttl : Int) : List Demand :=
  [⟨0, .fetch (.text "a") (.int ttl)⟩, ⟨20, .sweep⟩, ⟨60, .erase (.list [.int 1])⟩,
    ⟨65, .fetch (.text "b") (.int 1)⟩, ⟨70, .sweep⟩]

theorem noLonger_slips : List.Forall₂ Demand.NoLonger (slips 5) (slips 50) :=
  .cons ⟨rfl, .fetch rfl rfl (by decide)⟩ <| .cons ⟨rfl, .same _⟩ <| .cons ⟨rfl, .same _⟩ <|
    .cons ⟨rfl, .same _⟩ <| .cons ⟨rfl, .same _⟩ .nil

theorem proper_slips (ttl : Int) : ∀ d ∈ slips ttl, d.op.Proper := by
  simp [slips, Op.Proper, Value.toKey, Key.ofValue, Key.isProper]

theorem Sitting.uncons {host : Host} {policy : Policy} {t : Tid} {m : Machine} {xs : List Service}
    {l : Ledger} {d : Demand} {ds : List Demand} (h : Sitting host t m xs)
    (hds : xs.map (·.toDemand) = d :: ds) (hi : m.Idle policy t) (hl : m.shared.ledger = l) :
    ∃ x m' xs', xs = x :: xs' ∧ x.Comes (l.serve host policy d.clock x.call d.op) ∧
      Sitting host t m' xs' ∧ xs'.map (·.toDemand) = ds ∧ m'.Idle policy t ∧
      m'.shared.ledger = (l.serve host policy d.clock x.call d.op).ledger := by
  cases h with
  | nil => cases hds
  | @cons m m' x xs hx hxs =>
    obtain ⟨rfl, rfl⟩ := List.cons.inj hds
    obtain ⟨hcomes, hi', hleft⟩ := hx.comes hi
    rw [hl] at hcomes
    exact ⟨x, m', xs, rfl, hcomes, hxs, rfl, hi', hleft ▸ hcomes.ledger⟩

theorem passes_slips {ttl : Int} {xs : List Service}
    (hxs : Sitting .steady 0 (.start ⟨false, false⟩ 0 10) xs)
    (hds : xs.map (·.toDemand) = slips ttl) : ∃ x₁ x₂ x₃ xs', xs = x₁ :: x₂ :: x₃ :: xs' ∧
      x₃.passes = if ttl < 20 then [60] else [] := by
  obtain ⟨x₁, m₁, xs, rfl, -, hxs, hds, hi, hl⟩ := hxs.uncons hds (.start ..) rfl
  obtain ⟨x₂, m₂, xs, rfl, -, hxs, hds, hi, hl⟩ := hxs.uncons hds hi
    (l := ⟨[⟨.text "a", .text "A", 0 + ttl⟩], 10, 10⟩) (hl.trans rfl)
  obtain ⟨x₃, m₃, xs, rfl, h, -⟩ := hxs.uncons hds hi hl
  refine ⟨x₁, x₂, x₃, xs, rfl, h.passes.trans ?_⟩
  by_cases hlate : ttl < 20 <;>
    simp [Ledger.serve, Ledger.dropped, Ledger.swept, Ledger.passes, Host.spares, Value.toKey,
      Key.ofValue, hlate]

theorem not_outlasted_slips :
    List.Forall₂ Demand.NoLonger (slips 5) (slips 50) ∧ (∀ d ∈ slips 5, d.op.Proper) ∧
      ∃ xs xs', Sitting .steady 0 (.start ⟨false, false⟩ 0 10) xs ∧
        Sitting .steady 0 (.start ⟨false, false⟩ 0 10) xs' ∧ xs.map (·.toDemand) = slips 5 ∧
        xs'.map (·.toDemand) = slips 50 ∧ ¬List.Forall₂ (Service.OutlastedBy .steady) xs xs' := by
  have hi := Machine.Idle.start ⟨false, false⟩ 0 10 0
  obtain ⟨xs, hxs, hds⟩ := Sitting.exists_of_idle .steady hi (slips 5)
  obtain ⟨xs', hxs', hds'⟩ := Sitting.exists_of_idle .steady hi (slips 50)
  refine ⟨noLonger_slips, proper_slips 5, xs, xs', hxs, hxs', hds, hds', fun h => ?_⟩
  obtain ⟨x₁, x₂, x₃, xs, rfl, hpasses⟩ := passes_slips hxs hds
  obtain ⟨x₁', x₂', x₃', xs', rfl, hpasses'⟩ := passes_slips hxs' hds'
  simp only [List.forall₂_cons] at h
  have heq := h.2.2.1.passes
  rw [hpasses, hpasses'] at heq
  cases heq

end Lapse
