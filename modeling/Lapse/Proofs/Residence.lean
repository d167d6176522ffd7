import Lapse.Proofs.Disposal
import Lapse.Proofs.Sweeping

namespace Lapse

def InsertedAt (es : List Timed) (i : Nat) (k : Key) (v : Value) : Prop :=
  ∃ e k' r, es[i]? = some e ∧ e.what = .inserted k' r ∧ k'.same k = true ∧ r.value = v

def DeletedAt (es : List Timed) (j : Nat) (k : Key) (v : Value) : Prop :=
  ∃ e k' r, es[j]? = some e ∧ e.what = .deleted k' r ∧ k'.same k = true ∧ r.value = v

/-- An entry of the key lives between these places. -/
structure Residence (es : List Timed) (i j : Nat) (k : Key) (v : Value) : Prop where
  before : i < j
  begins : InsertedAt es i k v
  ends : DeletedAt es j k v
  within : ∀ x e, i < x → x < j → es[x]? = some e →
    e.what.inserts k = false ∧ e.what.deletes k = false

/-- Of the thread that made the deletion at the first place, the next event is the one at the
second place, by which the same call has the deleted value disposed. -/
inductive Disposes (es : List Timed) (j x : Nat) : Prop
  | intro {d a : Timed} {k : Key} {r : Record} : es[j]? = some d → es[x]? = some a → j < x →
    (∀ y e, j < y → y < x → es[y]? = some e → e.thread ≠ d.thread) → a.thread = d.thread →
    a.call = d.call → d.what = .deleted k r → a.what = .asked (.dispose r.value) →
    Disposes es j x

variable {es : List Timed} {i i' j j' x : Nat} {k : Key} {v v' : Value}

theorem InsertedAt.inserts (h : InsertedAt es i k v) :
    ∃ e, es[i]? = some e ∧ e.what.inserts k = true := by
  obtain ⟨e, k', r, he, hw, hs, -⟩ := h
  exact ⟨e, he, by simpa [hw, Happening.inserts] using hs⟩

theorem DeletedAt.deletes (h : DeletedAt es j k v) :
    ∃ e, es[j]? = some e ∧ e.what.deletes k = true := by
  obtain ⟨e, k', r, he, hw, hs, -⟩ := h
  exact ⟨e, he, by simpa [hw, Happening.deletes] using hs⟩

theorem Residence.end_unique (h : Residence es i j k v) (h' : Residence es i j' k v') : j = j' := by
  obtain ⟨e, he, hd⟩ := h.ends.deletes
  obtain ⟨e', he', hd'⟩ := h'.ends.deletes
  obtain hlt | heq | hlt := Nat.lt_trichotomy j j'
  · simp [(h'.within j e h.before hlt he).2] at hd
  · exact heq
  · simp [(h.within j' e' h'.before hlt he').2] at hd'

theorem Residence.begin_unique (h : Residence es i j k v) (h' : Residence es i' j k v') :
    i = i' := by
  obtain ⟨e, he, hi⟩ := h.begins.inserts
  obtain ⟨e', he', hi'⟩ := h'.begins.inserts
  obtain hlt | heq | hlt := Nat.lt_trichotomy i i'
  · simp [(h.within i' e' hlt h'.before he').1] at hi'
  · exact heq
  · simp [(h'.within i e hlt h.before he).1] at hi

theorem split_at {α : Type} {xs : List α} {n : Nat} {a : α} (h : xs[n]? = some a) :
    ∃ p q, xs = p ++ a :: q ∧ p.length = n := by
  obtain ⟨hn, rfl⟩ := List.getElem?_eq_some_iff.1 h
  refine ⟨xs.take n, xs.drop (n + 1), ?_, by simp; omega⟩
  rw [← List.drop_eq_getElem_cons, List.take_append_drop]

theorem split_between {α : Type} {xs : List α} {n n' : Nat} {a b : α} (ha : xs[n]? = some a)
    (hb : xs[n']? = some b) (h : n < n') :
    ∃ p m q, xs = p ++ a :: (m ++ b :: q) ∧ p.length = n ∧ p.length + (m.length + 1) = n' := by
  obtain ⟨p, rest, rfl, rfl⟩ := split_at ha
  obtain ⟨l, rfl⟩ := Nat.exists_eq_add_of_lt h
  rw [List.getElem?_append_right (by omega), show p.length + l + 1 - p.length = l + 1 by omega,
    List.getElem?_cons_succ] at hb
  obtain ⟨m, q, rfl, rfl⟩ := split_at hb
  exact ⟨p, m, q, rfl, rfl, by omega⟩

theorem getElem?_between {α : Type} {p m q : List α} {a b y : α} {n : Nat}
    (hp : p.length < n) (hm : n < p.length + (m.length + 1))
    (h : (p ++ a :: (m ++ b :: q))[n]? = some y) : y ∈ m := by
  rw [List.getElem?_append_right (Nat.le_of_lt hp)] at h
  obtain ⟨n', hn⟩ := Nat.exists_eq_add_of_lt hp
  rw [show n - p.length = n' + 1 by omega, List.getElem?_cons_succ,
    List.getElem?_append_left (by omega)] at h
  exact List.mem_of_getElem? h

theorem getElem?_middle {α : Type} (p q : List α) (a : α) :
    (p ++ a :: q)[p.length]? = some a := by
  simp

theorem getElem?_second {α : Type} (p m q : List α) (a b : α) :
    (p ++ a :: (m ++ b :: q))[p.length + (m.length + 1)]? = some b := by
  rw [List.getElem?_append_right (by omega), Nat.add_sub_cancel_left, List.getElem?_cons_succ]
  simp

theorem getElem?_after {α : Type} {p q : List α} {a y : α} {n : Nat} (hp : p.length < n)
    (h : (p ++ a :: q)[n]? = some y) : y ∈ q := by
  rw [List.getElem?_append_right (Nat.le_of_lt hp)] at h
  obtain ⟨n', hn⟩ := Nat.exists_eq_add_of_lt hp
  rw [show n - p.length = n' + 1 by omega, List.getElem?_cons_succ] at h
  exact List.mem_of_getElem? h

theorem getElem?_append_some {α : Type} {xs : List α} {n : Nat} {a : α} (h : xs[n]? = some a)
    (ys : List α) : (xs ++ ys)[n]? = some a := by
  obtain ⟨hn, -⟩ := List.getElem?_eq_some_iff.1 h
  rwa [List.getElem?_append_left hn]

theorem InsertedAt.append (h : InsertedAt es i k v) (es' : List Timed) :
    InsertedAt (es ++ es') i k v := by
  obtain ⟨e, k', r, he, h⟩ := h
  exact ⟨e, k', r, getElem?_append_some he es', h⟩

theorem DeletedAt.append (h : DeletedAt es j k v) (es' : List Timed) :
    DeletedAt (es ++ es') j k v := by
  obtain ⟨e, k', r, he, h⟩ := h
  exact ⟨e, k', r, getElem?_append_some he es', h⟩

theorem DeletedAt.lt_length (h : DeletedAt es j k v) : j < es.length := by
  obtain ⟨e, k', r, he, -⟩ := h
  exact (List.getElem?_eq_some_iff.1 he).1

theorem Residence.append (h : Residence es i j k v) (es' : List Timed) :
    Residence (es ++ es') i j k v where
  before := h.before
  begins := h.begins.append es'
  ends := h.ends.append es'
  within x e hx hx' he := by
    have := h.ends.lt_length
    rw [List.getElem?_append_left (by omega)] at he
    exact h.within x e hx hx' he

theorem Residence.of_split {p m q : List Timed} {a d : Timed} {k₁ k₂ : Key} {r₁ r₂ : Record}
    (ha : a.what = .inserted k₁ r₁) (hd : d.what = .deleted k₂ r₂) (h₁ : k₁.same k = true)
    (h₂ : k₂.same k = true) (hr₁ : r₁.value = v) (hr₂ : r₂.value = v)
    (hm : ∀ e ∈ m, e.what.inserts k = false ∧ e.what.deletes k = false) :
    Residence (p ++ a :: (m ++ d :: q)) p.length (p.length + (m.length + 1)) k v where
  before := by omega
  begins := ⟨a, k₁, r₁, getElem?_middle .., ha, h₁, hr₁⟩
  ends := ⟨d, k₂, r₂, getElem?_second .., hd, h₂, hr₂⟩
  within x e hx hx' he := hm e (getElem?_between hx hx' he)

theorem residence_of_inserted {s : Store} (h : Store.Replays .empty es s)
    (hi : InsertedAt es i k v) :
    (∃! j, Residence es i j k v) ∨ (∃ r, s.find? k = some r ∧ r.value = v) ∧
      ∀ x e, i < x → es[x]? = some e → e.what.inserts k = false ∧ e.what.deletes k = false := by
  obtain ⟨a, k', r, ha, hw, hs, rfl⟩ := hi
  obtain ⟨p, rest, rfl, rfl⟩ := split_at ha
  obtain ⟨s₁, s₂, -, hf, h₂⟩ := h.split_cons
  rw [hw] at hf
  have hput : s₂.find? k = some r := by rw [← s₂.find?_congr hs, hf.of_inserted]
  by_cases hd : ∃ e ∈ rest, e.what.deletes k = true
  · left
    obtain ⟨m, d, q, rfl, hdel, hm⟩ := exists_first hd
    obtain ⟨s₃, s₄, h₃, hf', -⟩ := h₂.split_cons
    obtain ⟨⟨r', hr', hv⟩, hins⟩ := h₃.lives hput hm
    have hend : ∃ k₂ r₂, d.what = .deleted k₂ r₂ ∧ k₂.same k = true ∧ r₂.value = r.value := by
      obtain ⟨_, _, he, _⟩ | ⟨_, _, _, he, _⟩ | ⟨k₂, r₂, he, hs₂, hr₂, -⟩ :=
        hf'.touching (Happening.touches_of_deletes hdel)
      · simp [he, Happening.deletes] at hdel
      · simp [he, Happening.deletes] at hdel
      · rw [hr'] at hr₂
        cases hr₂
        exact ⟨k₂, r', he, hs₂, hv⟩
    obtain ⟨k₂, r₂, hw₂, hs₂, hv₂⟩ := hend
    have hres := Residence.of_split (p := p) (q := q) hw hw₂ hs hs₂ rfl hv₂
      fun e he => ⟨hins e he, hm e he⟩
    exact ⟨_, hres, fun j hj => hj.end_unique hres⟩
  · right
    have hno : ∀ e ∈ rest, e.what.deletes k = false := by simpa using hd
    obtain ⟨hlive, hins⟩ := h₂.lives hput hno
    refine ⟨hlive, ?_⟩
    intro x e hx he
    have := getElem?_after hx he
    exact ⟨hins e this, hno e this⟩

theorem residence_of_deleted {s : Store} (h : Store.Replays .empty es s)
    (hd : DeletedAt es j k v) : ∃! i, Residence es i j k v := by
  obtain ⟨d, k', r, hd, hw, hs, rfl⟩ := hd
  obtain ⟨p, q, rfl, rfl⟩ := split_at hd
  obtain ⟨s₁, s₂, h₁, hf, -⟩ := h.split_cons
  rw [hw] at hf
  have hr : s₁.find? k = some r := by rw [← s₁.find?_congr hs, hf.of_deleted]
  obtain ⟨p, a, m, k₁, r₁, rfl, ha, hs₁, hv, hm⟩ := h₁.born (Store.find?_empty _) hr
  have hres := Residence.of_split (p := p) (q := q) ha hw hs₁ hs hv rfl hm
  have hlen : (p ++ a :: m).length = p.length + (m.length + 1) := by simp
  rw [List.append_assoc, List.cons_append, hlen]
  exact ⟨_, hres, fun i hi => hi.begin_unique hres⟩

theorem Disposes.next_unique {x' : Nat} (h : Disposes es j x) (h' : Disposes es j x') :
    x = x' := by
  obtain ⟨hd, ha, hlt, hm, ht, -⟩ := h
  obtain ⟨hd', ha', hlt', hm', ht', -⟩ := h'
  cases hd.symm.trans hd'
  obtain h | h | h := Nat.lt_trichotomy x x'
  · exact absurd ht (hm' x _ hlt h ha)
  · exact h
  · exact absurd ht' (hm x' _ hlt' h ha')

theorem Disposes.unique (h : Disposes es j x) (h' : Disposes es j' x) : j = j' := by
  obtain ⟨hd, ha, hlt, hm, ht, -⟩ := h
  obtain ⟨hd', ha', hlt', hm', ht', -⟩ := h'
  cases ha.symm.trans ha'
  obtain h | h | h := Nat.lt_trichotomy j j'
  · exact absurd (ht'.symm.trans ht) (hm j' _ h hlt' hd')
  · exact h
  · exact absurd (ht.symm.trans ht') (hm' j _ h hlt hd)

theorem Disposes.of_split {p m q : List Timed} {d a : Timed} {r : Record}
    (hm : ∀ e ∈ m, e.thread ≠ d.thread) (ht : a.thread = d.thread) (hc : a.call = d.call)
    (hd : d.what = .deleted k r) (ha : a.what = .asked (.dispose r.value)) :
    Disposes (p ++ d :: (m ++ a :: q)) p.length (p.length + (m.length + 1)) :=
  .intro (getElem?_middle ..) (getElem?_second ..) (by omega)
    (fun _ e hy hy' he => hm e (getElem?_between hy hy' he)) ht hc hd ha

structure Conserved (policy : Policy) (es : List Timed) (m : Machine) : Prop where
  supplied : ∀ {i : Nat} {e : Timed} {k : Key} {r : Record}, es[i]? = some e →
    e.what = .inserted k r →
    ∃ x y, x < i ∧ es[x]? = some y ∧ y.call = e.call ∧ y.what = .replied (.ok r.value)
  ended : ∀ {i : Nat} {k : Key} {v : Value}, InsertedAt es i k v →
    (∃! j, Residence es i j k v) ∨ (∃ r, m.shared.store.find? k = some r ∧ r.value = v) ∧
      ∀ x e, i < x → es[x]? = some e → e.what.inserts k = false ∧ e.what.deletes k = false
  begun : ∀ {j : Nat} {k : Key} {v : Value}, DeletedAt es j k v → ∃! i, Residence es i j k v
  removed : ∀ {j : Nat} {d : Timed} {k : Key} {r : Record}, es[j]? = some d →
    d.what = .deleted k r → Removes (es.take j) d.call
  called : ∀ {i j : Nat} {b b' : Timed} {op op' : Op}, es[i]? = some b → es[j]? = some b' →
    b.what = .called op → b'.what = .called op' → b.call = b'.call → i = j
  never_overwritten : ∀ e ∈ es, ∀ k r, e.what ≠ .overwritten k r
  disposed : policy.disposes = true → ∀ {j : Nat} {d : Timed} {k : Key} {r : Record},
    es[j]? = some d → d.what = .deleted k r →
    (∃! x, Disposes es j x) ∨ (∀ x e, j < x → es[x]? = some e → e.thread ≠ d.thread) ∧
      m.Obliged d.thread d.call r.value
  deleted : ∀ {x : Nat} {a : Timed} {v : Value}, es[x]? = some a →
    a.what = .asked (.dispose v) → policy.disposes = true ∧ ∃! j, Disposes es j x
  stored : es.countP (·.what.isInsertion) = m.shared.store.size + es.countP (·.what.isDeletion)
  balanced : policy.disposes = true → (∀ t, ¬ Owed es t) →
    es.countP (·.what.isInsertion) = m.shared.store.size + es.countP (·.what.isDisposal)

namespace Machine

variable {policy : Policy} {clock interval : Int} {m : Machine}

theorem Trace.disposed (h : Trace (.start policy clock interval) es m)
    (hp : policy.disposes = true) {d : Timed} {r : Record} (hd : es[j]? = some d)
    (hr : d.what = .deleted k r) :
    (∃! x, Disposes es j x) ∨ (∀ x e, j < x → es[x]? = some e → e.thread ≠ d.thread) ∧
      m.Obliged d.thread d.call r.value := by
  obtain ⟨p, q, rfl, rfl⟩ := split_at hd
  by_cases hq : ∃ e ∈ q, (e.thread == d.thread) = true
  · left
    obtain ⟨n, a, q, rfl, ha, hn⟩ := exists_first hq
    have hn : ∀ e ∈ n, e.thread ≠ d.thread := by simpa using hn
    have ha : a.thread = d.thread := by simpa using ha
    have hpaid : Paid policy.disposes (p ++ d :: n) a := by
      apply h.paid
      rw [List.append_assoc, List.cons_append]
    obtain ⟨hc, hw⟩ := hpaid.pays hp (by rw [ha]; exact lastOf_of_split hn) hr
    have hdis := Disposes.of_split (p := p) (q := q) hn ha hc hr hw
    exact ⟨_, hdis, fun x hx => hx.next_unique hdis⟩
  · right
    have hq : ∀ e ∈ q, e.thread ≠ d.thread := by simpa using hq
    have ho : m.shared.policy.disposes = true := by rwa [h.account.policy]
    exact ⟨fun x e hx he => hq e (getElem?_after hx he),
      h.owes.obliged ho (lastOf_of_split hq) hr⟩

theorem Trace.deleted (h : Trace (.start policy clock interval) es m) {a : Timed}
    (ha : es[x]? = some a) (hv : a.what = .asked (.dispose v)) :
    policy.disposes = true ∧ ∃! j, Disposes es j x := by
  obtain ⟨pre, post, rfl, rfl⟩ := split_at ha
  obtain ⟨hp, d, k, r, hl, hc, hd, rfl⟩ := (h.paid rfl).owed hv
  obtain ⟨p, n, rfl, ht, hn⟩ := lastOf_split hl
  rw [← ht] at hn
  have hdis := Disposes.of_split (p := p) (q := post) hn ht.symm hc.symm hd hv
  have hlen : (p ++ d :: n).length = p.length + (n.length + 1) := by simp
  rw [List.append_assoc, List.cons_append, hlen]
  exact ⟨hp, _, hdis, fun j hj => hj.unique hdis⟩

theorem Trace.supplied (h : Trace (.start policy clock interval) es m) {e : Timed}
    {r : Record} (he : es[i]? = some e) (hw : e.what = .inserted k r) :
    ∃ x y, x < i ∧ es[x]? = some y ∧ y.call = e.call ∧ y.what = .replied (.ok r.value) := by
  obtain ⟨p, q, rfl, rfl⟩ := split_at he
  obtain ⟨key, ttl, k', n, -, -, -, hput⟩ := (h.origin rfl).puts (by rw [hw]; rfl)
  cases hput with
  | renewed hr => simp [hr] at hw
  | @inserted l a y _ hl _ hy _ =>
    have hmem : y ∈ trail p e.call := by simp [hl]
    obtain ⟨hmem, hc⟩ := mem_trail.1 hmem
    obtain ⟨x, hx, hxy⟩ := List.mem_iff_getElem.1 hmem
    refine ⟨x, y, hx, ?_, hc, hy⟩
    rw [List.getElem?_append_left hx, List.getElem?_eq_getElem hx, hxy]

theorem Trace.called_before (h : Trace (.start policy clock interval) es m) {b b' : Timed}
    {op : Op} (hb : es[i]? = some b) (hb' : es[j]? = some b') (hw : b'.what = .called op)
    (hc : b.call = b'.call) : ¬ i < j := by
  intro hlt
  obtain ⟨p, q, rfl, rfl⟩ := split_at hb'
  have hmem : b ∈ p := by
    rw [List.getElem?_append_left hlt] at hb
    exact List.mem_of_getElem? hb
  cases h.origin rfl with
  | called _ _ ha hfresh =>
    have := ha.calls b hmem
    omega
  | turn hs hs' _ _ _ hp =>
    rw [hw] at hp
    exact hp.inner.1 op (by simp)
  | returned o ho => simp [hw] at ho

theorem Trace.balanced (h : Trace (.start policy clock interval) es m)
    (hp : policy.disposes = true) (ho : ∀ t, ¬ Owed es t) :
    es.countP (·.what.isDeletion) = es.countP (·.what.isDisposal) := by
  have hpaid : ∀ {pre e post}, es = pre ++ e :: post → Paid true pre e := by
    intro pre e post he
    have := h.paid he
    rwa [hp] at this
  obtain ⟨owing, hmem, hcount⟩ := count_deletions hpaid
  have : owing = ∅ := Finset.eq_empty_of_forall_notMem fun t ht => ho t ((hmem t).1 ht)
  rwa [this, Finset.card_empty, Nat.add_zero] at hcount

theorem Trace.stored (h : Trace (.start policy clock interval) es m) :
    es.countP (·.what.isInsertion) =
      m.shared.store.size + es.countP (·.what.isDeletion) := by
  have := h.account.replays.size .empty
  rw [show Store.empty.size = 0 from rfl] at this
  omega

end Machine

/-- In every run, whatever callbacks do: residences end at most once, by a removal, a clearing or
a pass; what ends is disposed once, by the thread that ended it and as its next act; nothing else
is disposed. -/
theorem Run.conserved {policy : Policy} {clock interval : Int} {h : List Move} {m : Machine}
    (hr : Run (.start policy clock interval) h m) :
    Conserved policy (chronicle clock h) m := by
  have ht := hr.trace
  constructor
  case supplied => exact ht.supplied
  case ended => exact residence_of_inserted ht.account.replays
  case begun => exact residence_of_deleted ht.account.replays
  case removed =>
    intro j d k r hd hw
    obtain ⟨p, q, hes, rfl⟩ := split_at hd
    rw [hes, List.take_left]
    exact (ht.origin hes).removes hw
  case called =>
    intro i j b b' op op' hb hb' hw hw' hc
    have h₁ := ht.called_before hb hb' hw' hc
    have h₂ := ht.called_before hb' hb hw hc.symm
    omega
  case never_overwritten => exact fun e => ht.account.replays.never_overwritten
  case disposed => exact fun hp _ _ _ _ hd hr => ht.disposed hp hd hr
  case deleted => exact ht.deleted
  case stored => exact ht.stored
  case balanced =>
    intro hp ho
    rw [ht.stored, ht.balanced hp ho]

def overlap : List Label :=
  List.flatten [
    [.call 0 (.fetch (.int 1) (.int 5))], .replicate 12 (.step 0),
    [.reply 0 (.ok (.text "v"))], .replicate 6 (.step 0),
    [.advance 20, .call 1 .sweep], .replicate 7 (.step 1),
    [.call 0 (.erase (.bool true))], .replicate 2 (.step 0),
    [.reply 0 (.error (.raised .fatal ""))], .replicate 3 (.step 1)]

theorem conserved_overlap :
    ∃ h m, Run (.start ⟨false, true⟩ 0 10) h m ∧ Conserved ⟨false, true⟩ (chronicle 0 h) m ∧
      (chronicle 0 h).countP (·.what.isInsertion) = 1 ∧
      (chronicle 0 h).countP (·.what.isDisposal) = 1 :=
  ⟨_, _, .perform _ overlap, (Run.perform _ overlap).conserved, by decide +kernel,
    by decide +kernel⟩

end Lapse
