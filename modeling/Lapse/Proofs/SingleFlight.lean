import Lapse.Proofs.Residence

namespace Lapse

def Happening.lands (k : Key) : Happening → Prop
  | replied (.error _) => True
  | inserted k' _ => k' = k
  | _ => False

namespace Point

variable {s s' : Shared} {t : Tid} {call : Nat} {p : Point} {hs : List Happening}
  {c : Course Point} {k : Key}

theorem making_of_supply (h : p.ask? = some (.supply k)) : p.making? = some k := by
  cases p with
  | fetch f => cases f <;> cases h; rfl
  | erase e => cases e <;> cases h
  | clear e => cases e <;> cases h
  | sweep w => cases w <;> cases h
  | _ => cases h

theorem making_of_waits {p : Point} (h : p.awaitsSweep = true) : p.making? = none := by
  cases p with
  | fetch f => cases f <;> cases h; rfl
  | _ => rfl

theorem Goes.supply (h : p.Goes s t call hs s' c) (hk : .asked (.supply k) ∈ hs) :
    hs = [.asked (.supply k)] ∧ p.making? = none ∧ c.next.making? = some k ∧
      s'.store = s.store := by
  cases h with
  | fetch h =>
    cases h with
    | claimed _ =>
      obtain rfl : k = _ := by simpa using hk
      exact ⟨rfl, rfl, rfl, rfl⟩
    | _ => simp at hk
  | erase h => cases h <;> simp at hk
  | clear h => cases h <;> simp at hk
  | sweep h => cases h <;> simp at hk
  | _ => simp at hk

theorem Goes.making (h : p.Goes s t call hs s' c) (hk : p.making? = some k)
    (hn : s.store.contains k = false) :
    c.next.making? = some k ∨ ∃ x ∈ hs, x.lands k := by
  cases h with
  | fetch h =>
    cases h with
    | supplied v => exact .inl hk
    | unsupplied f => exact .inr ⟨_, List.mem_cons_self, trivial⟩
    | inserted _ =>
      cases hk
      exact .inr ⟨_, List.mem_cons_self, rfl⟩
    | overwritten hc =>
      cases hk
      simp [hn] at hc
    | _ => cases hk
  | _ => cases hk

end Point

namespace Machine

variable {policy : Policy} {clock interval : Int} {m m' : Machine} {es es' : List Timed}

/-- A call that had its supplier called is making the key still, unless the making has ended. -/
def Pursued (es : List Timed) (m : Machine) : Prop :=
  ∀ {p q : List Timed} {a : Timed} {k : Key}, es = p ++ a :: q → a.what = .asked (.supply k) →
    (∃ x, m.Live a.thread a.call x ∧ x.making? = some k) ∨
      ∃ e ∈ q, e.call = a.call ∧ e.what.lands k

theorem Change.making (h : Change m es' m') (ha : m.Account policy es) {t : Tid} {c : Nat}
    {x : Point} {k : Key} (hl : m.Live t c x) (hk : x.making? = some k) :
    (∃ x, m'.Live t c x ∧ x.making? = some k) ∨ ∃ e ∈ es', e.call = c ∧ e.what.lands k := by
  have hn := ha.numbered
  cases h with
  | advance ns => exact .inl ⟨x, hl, hk⟩
  | call _ => exact .inl ⟨x, live_call.2 (.inr hl), hk⟩
  | @turn u d p rest hs s course hf hp =>
    by_cases hd : c = d
    · subst hd
      obtain rfl := hn.point_unique (live_of_frames hf) hl
      obtain rfl := hn.apart (live_of_frames hf) hl
      obtain h | ⟨y, hy, hland⟩ := hp.making hk (ha.absent hl hk)
      · exact .inl ⟨_, (hn.live_turn hf).2 (.inl ⟨rfl, rfl, rfl⟩), h⟩
      · exact .inr ⟨_, List.mem_map_of_mem hy, rfl, hland⟩
    · exact .inl ⟨x, (hn.live_turn hf).2 (.inr ⟨hl, hd⟩), hk⟩
  | leave hf =>
    refine .inl ⟨x, (hn.live_leave hf).2 ⟨hl, ?_⟩, hk⟩
    rintro rfl
    rw [hn.point_unique hl (live_of_frames hf)] at hk
    cases hk
  | fail f hf hw =>
    refine .inl ⟨x, (hn.live_turn hf).2 (.inr ⟨hl, ?_⟩), hk⟩
    rintro rfl
    rw [hn.point_unique hl (live_of_frames hf), Point.making_of_waits hw] at hk
    cases hk

theorem Change.supply (h : Change m es' m') (ha : m.Account policy es) {a : Timed} {k : Key}
    (hmem : a ∈ es') (hw : a.what = .asked (.supply k)) :
    es' = [a] ∧ (∃ x, m.Live a.thread a.call x ∧ x.making? = none) ∧
      (∃ x, m'.Live a.thread a.call x ∧ x.making? = some k) ∧
        m'.shared.store = m.shared.store := by
  cases h with
  | call _ =>
    obtain rfl := List.mem_singleton.1 hmem
    cases hw
  | turn hf hp =>
    obtain ⟨y, hy, rfl⟩ := List.mem_map.1 hmem
    cases hw
    obtain ⟨rfl, hnone, hsome, hstore⟩ := hp.supply hy
    exact ⟨rfl, ⟨_, live_of_frames hf, hnone⟩,
      ⟨_, (ha.numbered.live_turn hf).2 (.inl ⟨rfl, rfl, rfl⟩), hsome⟩, hstore⟩
  | leave hf =>
    obtain rfl := List.mem_singleton.1 hmem
    cases hw
  | _ => simp at hmem

theorem Change.pursued (h : Change m es' m') (ha : m.Account policy es) (hp : m.Pursued es) :
    m'.Pursued (es ++ es') := by
  intro p q a k he hw
  obtain ⟨q, rfl, rfl⟩ | ⟨p, -, rfl⟩ := append_eq_append_cons he
  · obtain ⟨x, hl, hk⟩ | ⟨e, hq, hc, hland⟩ := hp rfl hw
    · obtain hx | ⟨e, he', hc, hland⟩ := h.making ha hl hk
      · exact .inl hx
      · exact .inr ⟨e, List.mem_append_right _ he', hc, hland⟩
    · exact .inr ⟨e, List.mem_append_left _ hq, hc, hland⟩
  · exact .inl (h.supply ha (by simp) hw).2.2.1

theorem Trace.pursued (h : Trace (.start policy clock interval) es m) : m.Pursued es := by
  induction h with
  | start => exact fun he => by simp at he
  | next ht hc ih => exact hc.pursued ht.account ih

theorem Trace.succeeds (h : Trace (.start policy clock interval) es m) {p q r : List Timed}
    {a b : Timed} {k k' : Key} (he : es = p ++ a :: (q ++ b :: r))
    (ha : a.what = .asked (.supply k)) (hb : b.what = .asked (.supply k'))
    (hs : k.same k' = true) :
    (∃ e ∈ q, e.call = a.call ∧ e.what.lands k) ∧
      ∃ m, Trace (.start policy clock interval) (p ++ a :: q) m ∧
        m.shared.store.contains k = false := by
  have hsplit : es = (p ++ a :: q) ++ b :: r := by simp [he]
  obtain ⟨es₀, m₀, m₁, xs, ys, ht, hc, hpre⟩ := h.locate hsplit
  have hmem : b ∈ xs ++ b :: ys := by simp
  obtain ⟨hxs, ⟨x, hl, hx⟩, ⟨x', hl', hx'⟩, hstore⟩ := hc.supply ht.account hmem hb
  obtain ⟨rfl, -⟩ := append_cons_eq_singleton hxs
  rw [List.append_nil] at hpre
  subst hpre
  have hacc := hc.account ht.account
  have habs : m₀.shared.store.contains k = false := by
    rw [Store.contains_congr _ hs, ← hstore]
    exact hacc.absent hl' hx'
  refine ⟨?_, m₀, ht, habs⟩
  obtain ⟨y, hy, hyk⟩ | hland := ht.pursued rfl ha
  · -- the first call would still be making the key when the second one begins to
    obtain ⟨z, hz, hzk⟩ | ⟨e, he, -, hland⟩ := hc.making ht.account hy hyk
    · rw [hacc.guarded.making_unique hz hl' hzk hx' hs] at hy
      rw [ht.account.numbered.point_unique hy hl, hx] at hyk
      cases hyk
    · rw [hxs, List.mem_singleton] at he
      rw [he, hb] at hland
      cases hland
  · exact hland

end Machine

structure SingleFlight (es : List Timed) (m : Machine) : Prop where
  alone : ∀ {t u : Tid} {c d : Nat} {p q : Point} {k k' : Key}, m.Live t c p → m.Live u d q →
    p.ask? = some (.supply k) → q.ask? = some (.supply k') → k.same k' = true → t = u ∧ c = d
  absent : ∀ {i : Nat} {a : Timed} {k : Key}, es[i]? = some a → a.what = .asked (.supply k) →
    (∀ x e, i < x → es[x]? = some e → e.call = a.call → ¬ e.what.lands k) →
    m.shared.store.contains k = false
  insertable : ∀ {t : Tid} {c a : Nat} {k : Key} {l : Lease},
    m.Live t c (.fetch (.insert k a l)) → m.shared.store.contains k = false
  never_overwritten : ∀ e ∈ es, ∀ k r, e.what ≠ .overwritten k r
  succession : ∀ {i j : Nat} {a b : Timed} {k k' : Key}, i < j → es[i]? = some a →
    es[j]? = some b → a.what = .asked (.supply k) → b.what = .asked (.supply k') →
    k.same k' = true →
    (∃ x e f, i < x ∧ x < j ∧ es[x]? = some e ∧ e.call = a.call ∧ e.what = .replied (.error f)) ∨
      ∃ x y e d v, i < x ∧ y < j ∧ es[x]? = some e ∧ e.call = a.call ∧ Residence es x y k v ∧
        es[y]? = some d ∧ Removes (es.take y) d.call

namespace Machine

variable {policy : Policy} {clock interval : Int} {m : Machine} {es : List Timed}

theorem Trace.alone (h : Trace (.start policy clock interval) es m) {t u : Tid} {c d : Nat}
    {p q : Point} {k k' : Key} (hp : m.Live t c p) (hq : m.Live u d q)
    (hk : p.ask? = some (.supply k)) (hk' : q.ask? = some (.supply k'))
    (hs : k.same k' = true) : t = u ∧ c = d := by
  have ha := h.account
  obtain rfl := ha.guarded.making_unique hp hq (Point.making_of_supply hk)
    (Point.making_of_supply hk') hs
  exact ⟨ha.numbered.apart hp hq, rfl⟩

theorem Trace.absent (h : Trace (.start policy clock interval) es m) {i : Nat} {a : Timed}
    {k : Key} (ha : es[i]? = some a) (hw : a.what = .asked (.supply k))
    (hno : ∀ x e, i < x → es[x]? = some e → e.call = a.call → ¬ e.what.lands k) :
    m.shared.store.contains k = false := by
  obtain ⟨p, q, rfl, rfl⟩ := split_at ha
  obtain ⟨x, hl, hk⟩ | ⟨e, hq, hc, hland⟩ := h.pursued rfl hw
  · exact h.account.absent hl hk
  · obtain ⟨n, hn, rfl⟩ := List.mem_iff_getElem.1 hq
    refine absurd hland (hno (p.length + (n + 1)) _ (by omega) ?_ hc)
    rw [List.getElem?_append_right (by omega), Nat.add_sub_cancel_left, List.getElem?_cons_succ,
      List.getElem?_eq_getElem hn]

theorem Trace.succession (h : Trace (.start policy clock interval) es m) {i j : Nat}
    {a b : Timed} {k k' : Key} (hij : i < j) (ha : es[i]? = some a) (hb : es[j]? = some b)
    (hwa : a.what = .asked (.supply k)) (hwb : b.what = .asked (.supply k'))
    (hs : k.same k' = true) :
    (∃ x e f, i < x ∧ x < j ∧ es[x]? = some e ∧ e.call = a.call ∧ e.what = .replied (.error f)) ∨
      ∃ x y e d v, i < x ∧ y < j ∧ es[x]? = some e ∧ e.call = a.call ∧ Residence es x y k v ∧
        es[y]? = some d ∧ Removes (es.take y) d.call := by
  obtain ⟨p, n, q, rfl, rfl, rfl⟩ := split_between ha hb hij
  obtain ⟨⟨e, he, hc, hland⟩, m₀, ht, habs⟩ := h.succeeds rfl hwa hwb hs
  obtain ⟨n₁, n₂, rfl⟩ := List.append_of_mem he
  have hx : (p ++ a :: (n₁ ++ e :: n₂))[p.length + (n₁.length + 1)]? = some e :=
    getElem?_second ..
  have hall : p ++ a :: (n₁ ++ e :: n₂ ++ b :: q) = (p ++ a :: (n₁ ++ e :: n₂)) ++ b :: q := by
    simp
  have hlen : p.length + ((n₁ ++ e :: n₂).length + 1) = (p ++ a :: (n₁ ++ e :: n₂)).length := by
    simp
  rw [hall, hlen]
  cases hw : e.what with
  | replied r =>
    cases r with
    | error f =>
      refine .inl ⟨p.length + (n₁.length + 1), e, f, by omega, ?_, getElem?_append_some hx _, hc,
        hw⟩
      exact (List.getElem?_eq_some_iff.1 hx).1
    | ok v => simp [hw, Happening.lands] at hland
  | inserted k₁ r =>
    obtain rfl : k₁ = k := by simpa [hw, Happening.lands] using hland
    have hins : InsertedAt (p ++ a :: (n₁ ++ e :: n₂)) (p.length + (n₁.length + 1)) k₁ r.value :=
      ⟨e, k₁, r, hx, hw, Key.same_refl k₁, rfl⟩
    obtain ⟨y, hres, -⟩ | ⟨⟨r', hr', -⟩, -⟩ := residence_of_inserted ht.account.replays hins
    · obtain ⟨d, k₂, r₂, hd, hwd, -⟩ := hres.ends
      obtain ⟨u, v, huv, hlen'⟩ := split_at hd
      refine .inr ⟨_, y, e, d, r.value, by omega, hres.ends.lt_length, getElem?_append_some hx _,
        hc, hres.append _, getElem?_append_some hd _, ?_⟩
      have hrem := (ht.origin huv).removes hwd
      rw [huv, ← hlen', List.append_assoc, List.take_left]
      exact hrem
    · rw [Store.find?_eq_none_iff.2 habs] at hr'
      cases hr'
  | _ => simp [hw, Happening.lands] at hland

end Machine

/-- In every run, whatever callbacks do, suppliers fly singly. -/
theorem Run.singleFlight {policy : Policy} {clock interval : Int} {h : List Move} {m : Machine}
    (hr : Run (.start policy clock interval) h m) : SingleFlight (chronicle clock h) m := by
  have ht := hr.trace
  constructor
  case alone => exact ht.alone
  case absent => exact ht.absent
  case insertable => exact fun hl => ht.account.absent hl rfl
  case never_overwritten => exact fun e => ht.account.replays.never_overwritten
  case succession => exact ht.succession

def Happening.isSupply : Happening → Bool
  | asked (.supply _) => true
  | _ => false

def thrice : List Label :=
  List.flatten [
    [.call 0 (.fetch (.int 1) (.int 5))], .replicate 8 (.step 0),
    [.call 1 (.fetch (.bool true) (.int 5))], .replicate 9 (.step 1),
    [.step 0, .reply 0 (.error (.raised .boom ""))], .replicate 4 (.step 0),
    .replicate 7 (.step 1),
    [.reply 1 (.ok (.text "v"))], .replicate 4 (.step 1),
    [.call 0 (.erase (.int 1))], .replicate 8 (.step 0),
    [.call 0 (.fetch (.int 1) (.int 5))], .replicate 12 (.step 0)]

theorem singleFlight_thrice :
    ∃ h m, Run (.start ⟨false, false⟩ 0 10) h m ∧ SingleFlight (chronicle 0 h) m ∧
      (chronicle 0 h).countP (·.what.isSupply) = 3 ∧
      (chronicle 0 h).countP (·.what.isInsertion) = 1 :=
  ⟨_, _, .perform _ thrice, (Run.perform _ thrice).singleFlight, by decide +kernel,
    by decide +kernel⟩

end Lapse
