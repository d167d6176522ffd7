import Lapse.Proofs.Flight

/-!
The store as its history tells it. Every event of a run does one lawful thing to the store or
nothing: an insertion is of an absent key, a renewal keeps the value, a deletion is of the very
record that is there, and nothing is overwritten. So the history of a key can be read off.
-/

namespace Lapse

theorem exists_first {α : Type} {P : α → Bool} {xs : List α} (h : ∃ x ∈ xs, P x = true) :
    ∃ p x q, xs = p ++ x :: q ∧ P x = true ∧ ∀ y ∈ p, P y = false := by
  obtain ⟨x, hx⟩ := Option.isSome_iff_exists.1 (List.find?_isSome.2 h)
  obtain ⟨hP, p, q, rfl, hp⟩ := List.find?_eq_some_iff_append.1 hx
  exact ⟨p, x, q, rfl, hP, by simpa using hp⟩

theorem exists_last {α : Type} {P : α → Bool} {xs : List α} (h : ∃ x ∈ xs, P x = true) :
    ∃ p x q, xs = p ++ x :: q ∧ P x = true ∧ ∀ y ∈ q, P y = false := by
  have h : ∃ x ∈ xs.reverse, P x = true := by simpa using h
  obtain ⟨p, x, q, hxs, hP, hp⟩ := exists_first h
  refine ⟨q.reverse, x, p.reverse, ?_, hP, by simpa using hp⟩
  rw [← List.reverse_reverse xs, hxs]
  simp

namespace Happening

def touched? : Happening → Option Key
  | inserted k _ => some k
  | overwritten k _ => some k
  | renewed k _ => some k
  | deleted k _ => some k
  | _ => none

def written? : Happening → Option Record
  | inserted _ r => some r
  | overwritten _ r => some r
  | renewed _ r => some r
  | _ => none

def touches (h : Happening) (k : Key) : Bool := h.touched?.any (·.same k)

def isInsertion : Happening → Bool
  | inserted .. => true
  | _ => false

def isDeletion : Happening → Bool
  | deleted .. => true
  | _ => false

def inserts (k : Key) : Happening → Bool
  | inserted k' _ => k'.same k
  | _ => false

def deletes (k : Key) : Happening → Bool
  | deleted k' _ => k'.same k
  | _ => false

@[simp] theorem touches_inserted (k k' : Key) (r : Record) :
    (inserted k' r).touches k = k'.same k := rfl

@[simp] theorem touches_renewed (k k' : Key) (r : Record) :
    (renewed k' r).touches k = k'.same k := rfl

@[simp] theorem touches_deleted (k k' : Key) (r : Record) :
    (deleted k' r).touches k = k'.same k := rfl

theorem touches_of_inserts {h : Happening} {k : Key} (hk : h.inserts k = true) :
    h.touches k = true := by
  cases h with
  | inserted k' r => exact hk
  | _ => cases hk

theorem touches_of_deletes {h : Happening} {k : Key} (hk : h.deletes k = true) :
    h.touches k = true := by
  cases h with
  | deleted k' r => exact hk
  | _ => cases hk

end Happening

namespace Store

/-- What may happen to a store, and the store after it. -/
inductive Follows (s : Store) : Happening → Store → Prop
  | inserted {k : Key} (r : Record) : s.contains k = false →
    Follows s (.inserted k r) (s.append k r)
  | renewed {k : Key} {r r' : Record} : s.find? k = some r → r'.value = r.value →
    Follows s (.renewed k r') (s.replace k r')
  | deleted {k : Key} {r : Record} : s.find? k = some r → Follows s (.deleted k r) (s.erase k)
  | other {h : Happening} : h.touched? = none → Follows s h s

inductive Replays : Store → List Timed → Store → Prop
  | nil {s : Store} : Replays s [] s
  | cons {s s' s'' : Store} {e : Timed} {es : List Timed} :
    Follows s e.what s' → Replays s' es s'' → Replays s (e :: es) s''

variable {s s' s'' : Store} {es es' : List Timed} {k : Key} {r : Record} {h : Happening}

theorem Follows.unique (h' : Follows s h s') (h'' : Follows s h s'') : s' = s'' := by
  cases h' with
  | other hn =>
    cases h'' with
    | other => rfl
    | _ => cases hn
  | _ =>
    cases h'' with
    | other hn => cases hn
    | _ => rfl

theorem Replays.unique (h : Replays s es s') (h' : Replays s es s'') : s' = s'' := by
  induction h with
  | nil =>
    cases h'
    rfl
  | cons hf _ ih =>
    cases h' with
    | cons hf' h' =>
      obtain rfl := hf.unique hf'
      exact ih h'

theorem Replays.append (h : Replays s es s') (h' : Replays s' es' s'') :
    Replays s (es ++ es') s'' := by
  induction h with
  | nil => exact h'
  | cons hf _ ih => exact .cons hf (ih h')

theorem Replays.split (h : Replays s (es ++ es') s'') :
    ∃ s', Replays s es s' ∧ Replays s' es' s'' := by
  induction es generalizing s with
  | nil => exact ⟨s, .nil, h⟩
  | cons e es ih =>
    cases h with
    | cons hf h =>
      obtain ⟨s', h₁, h₂⟩ := ih h
      exact ⟨s', .cons hf h₁, h₂⟩

theorem Replays.split_cons {e : Timed} (h : Replays s (es ++ e :: es') s'') :
    ∃ s₁ s₂, Replays s es s₁ ∧ Follows s₁ e.what s₂ ∧ Replays s₂ es' s'' := by
  obtain ⟨s₁, h₁, h⟩ := h.split
  cases h with
  | cons hf h => exact ⟨s₁, _, h₁, hf, h⟩

theorem Follows.find? (hf : Follows s h s') (hk : h.touches k = false) :
    s'.find? k = s.find? k := by
  cases hf with
  | inserted r _ =>
    rw [Happening.touches_inserted] at hk
    simp [find?_append, hk]
  | renewed _ _ =>
    rw [Happening.touches_renewed] at hk
    simp [find?_replace, hk]
  | deleted _ =>
    rw [Happening.touches_deleted] at hk
    simp [find?_erase, hk]
  | other _ => rfl

theorem Follows.touching (hf : Follows s h s') (hk : h.touches k = true) :
    (∃ k' r, h = .inserted k' r ∧ k'.same k = true ∧ s.find? k = none ∧ s'.find? k = some r) ∨
      (∃ k' r r', h = .renewed k' r' ∧ k'.same k = true ∧ s.find? k = some r ∧
        r'.value = r.value ∧ s'.find? k = some r') ∨
      ∃ k' r, h = .deleted k' r ∧ k'.same k = true ∧ s.find? k = some r ∧ s'.find? k = none := by
  cases hf with
  | @inserted k' r hn =>
    have hk : k'.same k = true := hk
    have hn : s.find? k = none := by
      rw [← find?_congr s hk]
      exact find?_eq_none_iff.2 hn
    exact .inl ⟨k', r, rfl, hk, hn, by simp [find?_append, hn, hk]⟩
  | @renewed k' r r' hr hv =>
    have hk : k'.same k = true := hk
    rw [find?_congr s hk] at hr
    exact .inr (.inl ⟨k', r, r', rfl, hk, hr, hv, by simp [find?_replace, hr, hk]⟩)
  | @deleted k' r hr =>
    have hk : k'.same k = true := hk
    rw [find?_congr s hk] at hr
    exact .inr (.inr ⟨k', r, rfl, hk, hr, by simp [find?_erase, hk]⟩)
  | other hn => simp [Happening.touches, hn] at hk

theorem Replays.last_write (h : Replays s es s') (hr : s'.find? k = some r) :
    (s.find? k = some r ∧ ∀ e ∈ es, e.what.touches k = false) ∨
      ∃ p w q, es = p ++ w :: q ∧ w.what.touches k = true ∧ w.what.written? = some r ∧
        ∀ e ∈ q, e.what.touches k = false := by
  induction h with
  | nil => exact .inl ⟨hr, by simp⟩
  | @cons s s' s'' e es hf h ih =>
    obtain ⟨hr, hq⟩ | ⟨p, w, q, rfl, hw, hr, hq⟩ := ih hr
    · cases hk : e.what.touches k with
      | false => exact .inl ⟨hf.find? hk ▸ hr, by simpa [hk] using hq⟩
      | true =>
        refine .inr ⟨[], e, es, rfl, hk, ?_, hq⟩
        obtain ⟨k', r', he, -, -, hr'⟩ | ⟨k', _, r', he, -, -, -, hr'⟩ | ⟨_, _, _, _, _, hn⟩ :=
          hf.touching hk
        · rw [he, ← hr, hr']
          rfl
        · rw [he, ← hr, hr']
          rfl
        · simp [hn] at hr
    · exact .inr ⟨e :: p, w, q, rfl, hw, hr, hq⟩

theorem Replays.lives (h : Replays s es s') (hr : s.find? k = some r)
    (hd : ∀ e ∈ es, e.what.deletes k = false) :
    (∃ r', s'.find? k = some r' ∧ r'.value = r.value) ∧ ∀ e ∈ es, e.what.inserts k = false := by
  induction h generalizing r with
  | nil => exact ⟨⟨r, hr, rfl⟩, by simp⟩
  | @cons s s' s'' e es hf h ih =>
    rw [List.forall_mem_cons] at hd
    cases hk : e.what.touches k with
    | false =>
      rw [← hf.find? hk] at hr
      obtain ⟨hv, hi⟩ := ih hr hd.2
      refine ⟨hv, List.forall_mem_cons.2 ⟨?_, hi⟩⟩
      cases hi : e.what.inserts k with
      | false => rfl
      | true => simp [Happening.touches_of_inserts hi] at hk
    | true =>
      obtain ⟨k', r', he, -, hn, -⟩ | ⟨k', r₀, r', he, -, hr₀, hv, hr'⟩ | ⟨k', r', he, hs, -, -⟩ :=
        hf.touching hk
      · simp [hn] at hr
      · rw [hr] at hr₀
        cases hr₀
        obtain ⟨⟨r'', hr'', hv'⟩, hi⟩ := ih hr' hd.2
        refine ⟨⟨r'', hr'', hv'.trans hv⟩, List.forall_mem_cons.2 ⟨?_, hi⟩⟩
        rw [he]
        rfl
      · simp [he, Happening.deletes, hs] at hd

theorem Replays.absent (h : Replays s es s') (hn : s.find? k = none)
    (hi : ∀ e ∈ es, e.what.inserts k = false) :
    s'.find? k = none ∧ ∀ e ∈ es, e.what.touches k = false := by
  induction h with
  | nil => exact ⟨hn, by simp⟩
  | @cons s s' s'' e es hf h ih =>
    rw [List.forall_mem_cons] at hi
    cases hk : e.what.touches k with
    | false =>
      rw [← hf.find? hk] at hn
      obtain ⟨hn, ht⟩ := ih hn hi.2
      exact ⟨hn, List.forall_mem_cons.2 ⟨hk, ht⟩⟩
    | true =>
      obtain ⟨k', r', he, hs, -, -⟩ | ⟨k', r₀, r', _, -, hr₀, _⟩ | ⟨k', r', _, _, hr, -⟩ :=
        hf.touching hk
      · simp [he, Happening.inserts, hs] at hi
      · simp [hn] at hr₀
      · simp [hn] at hr

theorem Replays.born (h : Replays s es s') (hn : s.find? k = none) (hr : s'.find? k = some r) :
    ∃ p e q k' r₀, es = p ++ e :: q ∧ e.what = .inserted k' r₀ ∧ k'.same k = true ∧
      r₀.value = r.value ∧ ∀ x ∈ q, x.what.inserts k = false ∧ x.what.deletes k = false := by
  have touched : ∃ e ∈ es, (e.what.inserts k || e.what.deletes k) = true := by
    by_contra hno
    have hi : ∀ e ∈ es, e.what.inserts k = false := by
      intro e he
      cases hi : e.what.inserts k with
      | false => rfl
      | true => exact absurd ⟨e, he, by simp [hi]⟩ hno
    simp [(h.absent hn hi).1] at hr
  obtain ⟨p, e, q, rfl, he, hq⟩ := exists_last touched
  simp only [Bool.or_eq_false_iff] at hq
  obtain ⟨s₁, s₂, h₁, hf, h₂⟩ := h.split_cons
  have hk : e.what.touches k = true := by
    cases hi : e.what.inserts k with
    | true => exact Happening.touches_of_inserts hi
    | false =>
      rw [hi] at he
      exact Happening.touches_of_deletes he
  obtain ⟨k', r₀, hw, hs, -, hr₀⟩ | ⟨_, _, _, hw, _⟩ | ⟨_, _, _, _, _, hn⟩ := hf.touching hk
  · obtain ⟨⟨r', hr', hv⟩, -⟩ := h₂.lives hr₀ fun x hx => (hq x hx).2
    rw [hr] at hr'
    cases hr'
    exact ⟨p, e, q, k', r₀, rfl, hw, hs, hv.symm, hq⟩
  · simp [hw, Happening.inserts, Happening.deletes] at he
  · simp [(h₂.absent hn fun x hx => (hq x hx).1).1] at hr

theorem Replays.never_overwritten (h : Replays s es s') {e : Timed} (he : e ∈ es) (k : Key)
    (r : Record) : e.what ≠ .overwritten k r := by
  intro hw
  obtain ⟨p, q, rfl⟩ := List.append_of_mem he
  obtain ⟨s₁, s₂, -, hf, -⟩ := h.split_cons
  rw [hw] at hf
  cases hf with
  | other hn => cases hn

theorem Follows.distinct (hf : Follows s h s') (hs : s.Distinct) : s'.Distinct := by
  cases hf with
  | inserted r hn => exact hs.append hn r
  | renewed _ _ => exact hs.replace _ _
  | deleted _ => exact hs.erase _
  | other _ => exact hs

theorem Replays.distinct (h : Replays s es s') (hs : s.Distinct) : s'.Distinct := by
  induction h with
  | nil => exact hs
  | cons hf _ ih => exact ih (hf.distinct hs)

theorem Follows.size (hf : Follows s h s') (hs : s.Distinct) :
    s'.size + (if h.isDeletion then 1 else 0) = s.size + if h.isInsertion then 1 else 0 := by
  cases hf with
  | inserted r _ => exact size_append ..
  | renewed _ _ => exact size_replace ..
  | deleted hr => exact size_erase hs (contains_of_find? hr)
  | other hn =>
    cases h with
    | inserted => cases hn
    | deleted => cases hn
    | _ => rfl

theorem Replays.size (h : Replays s es s') (hs : s.Distinct) :
    s'.size + es.countP (·.what.isDeletion) = s.size + es.countP (·.what.isInsertion) := by
  induction h with
  | nil => rfl
  | cons hf _ ih =>
    have := ih (hf.distinct hs)
    have := hf.size hs
    rw [List.countP_cons, List.countP_cons]
    omega

theorem Replays.found (h : Replays s es s') (hr : s'.find? k = some r) :
    s.find? k = some r ∨ ∃ e ∈ es, e.what.written? = some r := by
  obtain ⟨h, -⟩ | ⟨p, w, q, rfl, -, hw, -⟩ := h.last_write hr
  · exact .inl h
  · exact .inr ⟨w, by simp, hw⟩

theorem Follows.of_inserted (hf : Follows s (.inserted k r) s') : s'.find? k = some r := by
  obtain ⟨_, _, he, -, -, hr⟩ | ⟨_, _, _, he, _⟩ | ⟨_, _, he, _⟩ :=
    hf.touching (k := k) (by simp [Key.same_refl])
  · cases he
    exact hr
  · cases he
  · cases he

theorem Follows.of_deleted (hf : Follows s (.deleted k r) s') : s.find? k = some r := by
  cases hf with
  | deleted hr => exact hr
  | other hn => cases hn

end Store

def Sweep.read? : Sweep → Option (Key × Record)
  | judge _ k r => some (k, r)
  | approval _ k r => some (k, r)
  | settle _ k r => some (k, r)
  | _ => none

def Point.read? : Point → Option (Key × Record)
  | .sweep w => w.read?
  | _ => none

def stamps (es : List Timed) : List Nat := es.filterMap fun e => e.what.written?.map (·.stamp)

theorem stamps_append (es es' : List Timed) : stamps (es ++ es') = stamps es ++ stamps es' :=
  List.filterMap_append

theorem mem_stamps {es : List Timed} {e : Timed} {r : Record} (he : e ∈ es)
    (hr : e.what.written? = some r) : r.stamp ∈ stamps es :=
  List.mem_filterMap.2 ⟨e, he, by simp [hr]⟩

theorem Store.Replays.untouched {s s' : Store} {es es' : List Timed} {k : Key} {r : Record}
    (h : Replays .empty es s) (h' : Replays s es' s')
    (hinc : (stamps (es ++ es')).Pairwise (· < ·)) (hr : s.find? k = some r)
    (hr' : s'.find? k = some r) : ∀ e ∈ es', e.what.touches k = false := by
  obtain ⟨-, hno⟩ | ⟨p, w, q, rfl, -, hw, -⟩ := h'.last_write hr'
  · exact hno
  · obtain ⟨hn, -⟩ | ⟨p', w', q', rfl, -, hw', -⟩ := h.last_write hr
    · simp at hn
    · -- the record would have been put twice
      rw [stamps_append, List.pairwise_append] at hinc
      have := hinc.2.2 r.stamp (mem_stamps (by simp) hw') r.stamp (mem_stamps (by simp) hw)
      exact absurd this (Nat.lt_irrefl _)

namespace Point

variable {s s' : Shared} {t : Tid} {call : Nat} {p : Point} {hs : List Happening}
  {c : Course Point}

theorem Goes.replays (h : p.Goes s t call hs s' c)
    (hm : ∀ {k}, p.making? = some k → s.store.contains k = false)
    (hr : ∀ {k r r'}, p.read? = some (k, r) → s.store.find? k = some r' → r'.stamp = r.stamp →
      r' = r) : Store.Replays s.store (s.tell t call hs) s'.store := by
  cases h with
  | fetch h =>
    cases h with
    | found _ hf | foundLate hf =>
      simp only [Shared.put, Store.put_of_contains (Store.contains_of_find? hf)]
      exact .cons (.renewed hf rfl) .nil
    | inserted hn =>
      simp only [Shared.put, Store.put_of_not_contains hn]
      exact .cons (.inserted _ hn) .nil
    | overwritten hk => simp [hm rfl] at hk
    | refused | coerced | unkeyed | missed | recursive | lost | released | retried | acquired =>
      exact .nil
    | created | joined | claimed | stale | supplied | unsupplied | withdrawn =>
      exact .cons (.other rfl) .nil
  | erase h =>
    cases h with
    | popped _ hf => exact .cons (.deleted hf) .nil
    | disposes | disposed | undisposed => exact .cons (.other rfl) .nil
    | _ => exact .nil
  | clear h =>
    cases h with
    | popped hf => exact .cons (.deleted hf) .nil
    | disposes | disposed | gathered | undisposed => exact .cons (.other rfl) .nil
    | _ => exact .nil
  | sweep h =>
    cases h with
    | deleted hk =>
      obtain ⟨r', hf, hs⟩ := (Option.any_eq_true _ _).1 hk
      obtain rfl := hr rfl hf (by simpa using hs)
      exact .cons (.deleted hf) .nil
    | begun | early | ripe | barred | entered | forestalled | listed | idle | saved | dropped =>
      exact .nil
    | checks | isolated => exact .cons (.other rfl) (.cons (.other rfl) .nil)
    | _ => exact .cons (.other rfl) .nil
  | _ => exact .nil

theorem Goes.stamps (h : p.Goes s t call hs s' c) :
    stamps (s.tell t call hs) = [] ∨
      stamps (s.tell t call hs) = [s.fresh] ∧ s.fresh < s'.fresh := by
  cases h with
  | fetch h =>
    cases h with
    | found | foundLate | inserted | overwritten => exact .inr ⟨rfl, Nat.lt_succ_self _⟩
    | _ => exact .inl rfl
  | erase h => cases h <;> exact .inl rfl
  | clear h => cases h <;> exact .inl rfl
  | sweep h => cases h <;> exact .inl rfl
  | _ => exact .inl rfl

theorem Goes.read (h : p.Goes s t call hs s' c) {k : Key} {r : Record}
    (hr : c.next.read? = some (k, r)) : p.read? = some (k, r) ∨ s'.store.find? k = some r := by
  cases h with
  | fetch h => cases h <;> cases hr
  | erase h => cases h <;> cases hr
  | clear h => cases h <;> cases hr
  | sweep h =>
    cases h with
    | examined hf =>
      cases hr
      exact .inr hf
    | checks | approves | approved => exact .inl hr
    | _ => cases hr
  | _ => cases hr

end Point

namespace Machine

variable {m m' : Machine} {es es' : List Timed}

structure Stamped (m : Machine) : Prop where
  stored : ∀ {k r}, m.shared.store.find? k = some r → r.stamp < m.shared.fresh
  read : ∀ {t c p k r}, m.Live t c p → p.read? = some (k, r) → r.stamp < m.shared.fresh
  alone : ∀ {t c p k r r'}, m.Live t c p → p.read? = some (k, r) →
    m.shared.store.find? k = some r' → r'.stamp = r.stamp → r' = r

theorem Stamped.start (policy : Policy) (clock interval : Int) :
    (Machine.start policy clock interval).Stamped where
  stored h := by cases h
  read h := by simp [Live] at h
  alone h := by simp [Live] at h

theorem Stamped.calm (hs : m.Stamped) (hstore : m'.shared.store = m.shared.store)
    (hfresh : m.shared.fresh ≤ m'.shared.fresh)
    (hl : ∀ {t c p}, m'.Live t c p → m.Live t c p ∨ p.read? = none) : m'.Stamped := by
  have old : ∀ {t c p k r}, m'.Live t c p → p.read? = some (k, r) → m.Live t c p := by
    intro t c p k r h hk
    obtain h | h := hl h
    · exact h
    · simp [h] at hk
  constructor
  case stored =>
    intro k r h
    rw [hstore] at h
    exact Nat.lt_of_lt_of_le (hs.stored h) hfresh
  case read =>
    intro t c p k r h hk
    exact Nat.lt_of_lt_of_le (hs.read (old h hk) hk) hfresh
  case alone =>
    intro t c p k r r' h hk hr
    rw [hstore] at hr
    exact hs.alone (old h hk) hk hr

theorem Stamped.turn (hs : m.Stamped) (hn : m.Numbered) {t : Tid} {c : Nat} {p : Point}
    {rest : List Frame} {happened : List Happening} {s : Shared} {course : Course Point}
    (hf : m.frames t = ⟨c, p⟩ :: rest) (hp : p.Goes m.shared t c happened s course)
    (hr : Store.Replays m.shared.store (m.shared.tell t c happened) s.store) :
    Stamped ⟨s, m.calls.set t (⟨c, course.next⟩ :: rest)⟩ := by
  have hfresh : m.shared.fresh ≤ s.fresh := hp.keeps.fresh
  have new : ∀ {k r}, s.store.find? k = some r → m.shared.store.find? k = some r ∨
      r.stamp = m.shared.fresh ∧ m.shared.fresh < s.fresh := by
    intro k r h
    obtain h | ⟨e, he, hw⟩ := hr.found h
    · exact .inl h
    · have := mem_stamps he hw
      obtain h | ⟨h, hlt⟩ := hp.stamps
      · simp [h] at this
      · exact .inr ⟨by simpa [h] using this, hlt⟩
  have stored : ∀ {k r}, s.store.find? k = some r → r.stamp < s.fresh := by
    intro k r h
    obtain h | ⟨h, hlt⟩ := new h
    · exact Nat.lt_of_lt_of_le (hs.stored h) hfresh
    · omega
  constructor
  case stored => exact stored
  case read =>
    intro u d q k r hq hk
    obtain ⟨rfl, rfl, rfl⟩ | ⟨hq, -⟩ := (hn.live_turn hf).1 hq
    · obtain hk | hk := hp.read hk
      · exact Nat.lt_of_lt_of_le (hs.read (live_of_frames hf) hk) hfresh
      · exact stored hk
    · exact Nat.lt_of_lt_of_le (hs.read hq hk) hfresh
  case alone =>
    -- a record that was just put has a stamp that none had before
    have old : ∀ {u d q k r r'}, m.Live u d q → q.read? = some (k, r) →
        s.store.find? k = some r' → r'.stamp = r.stamp → r' = r := by
      intro u d q k r r' hq hk hr' he
      obtain hr' | ⟨hr', -⟩ := new hr'
      · exact hs.alone hq hk hr' he
      · have := hs.read hq hk
        omega
    intro u d q k r r' hq hk hr' he
    obtain ⟨rfl, rfl, rfl⟩ | ⟨hq, -⟩ := (hn.live_turn hf).1 hq
    · obtain hk | hk := hp.read hk
      · exact old (live_of_frames hf) hk hr' he
      · rw [hk] at hr'
        cases hr'
        rfl
    · exact old hq hk hr' he

variable {policy : Policy}

/-- What holds of a machine that events have led to from the start. -/
structure Account (policy : Policy) (es : List Timed) (m : Machine) : Prop where
  policy : m.shared.policy = policy
  shaped : m.Shaped
  numbered : m.Numbered
  guarded : m.Guarded
  stamped : m.Stamped
  replays : Store.Replays .empty es m.shared.store
  increasing : (stamps es).Pairwise (· < ·)
  bound : ∀ n ∈ stamps es, n < m.shared.fresh
  calls : ∀ e ∈ es, e.call < m.shared.fresh

theorem Account.absent (ha : m.Account policy es) {t : Tid} {c : Nat} {p : Point} {k : Key}
    (h : m.Live t c p) (hk : p.making? = some k) : m.shared.store.contains k = false :=
  ha.guarded.absent_of_making ha.numbered h hk

theorem Account.turn (ha : m.Account policy es) {t : Tid} {c : Nat} {p : Point} {rest : List Frame}
    {hs : List Happening} {s : Shared} {course : Course Point}
    (hf : m.frames t = ⟨c, p⟩ :: rest) (hp : p.Goes m.shared t c hs s course) :
    Store.Replays m.shared.store (m.shared.tell t c hs) s.store :=
  hp.replays (fun hk => ha.absent (live_of_frames hf) hk)
    (fun hk => ha.stamped.alone (live_of_frames hf) hk)

theorem Change.stamped (h : Change m es' m') (ha : m.Account policy es) : m'.Stamped := by
  cases h with
  | advance ns => exact ha.stamped.calm rfl (Nat.le_refl _) .inl
  | @call t op _ =>
    apply ha.stamped.calm
    · rfl
    · exact Nat.le_succ _
    · intro u d q h
      obtain ⟨-, -, rfl⟩ | h := live_call.1 h
      · right
        cases op <;> rfl
      · exact .inl h
  | turn hf hp => exact ha.stamped.turn ha.numbered hf hp (ha.turn hf hp)
  | leave hf =>
    apply ha.stamped.calm
    · rfl
    · exact Nat.le_refl _
    · intro u d q h
      exact .inl ((ha.numbered.live_leave hf).1 h).1
  | fail f hf _ =>
    apply ha.stamped.calm
    · rfl
    · exact Nat.le_refl _
    · intro u d q h
      obtain ⟨-, -, rfl⟩ | ⟨h, -⟩ := (ha.numbered.live_turn hf).1 h
      · exact .inr rfl
      · exact .inl h

theorem Change.stamps (h : Change m es m') :
    stamps es = [] ∧ m.shared.fresh ≤ m'.shared.fresh ∨
      stamps es = [m.shared.fresh] ∧ m.shared.fresh < m'.shared.fresh := by
  cases h with
  | turn hf hp =>
    obtain h | h := hp.stamps
    · exact .inl ⟨h, hp.keeps.fresh⟩
    · exact .inr h
  | call _ => exact .inl ⟨rfl, Nat.le_succ _⟩
  | _ => exact .inl ⟨rfl, Nat.le_refl _⟩

theorem Change.replays (h : Change m es' m') (ha : m.Account policy es) :
    Store.Replays m.shared.store es' m'.shared.store := by
  cases h with
  | turn hf hp => exact ha.turn hf hp
  | call _ => exact .cons (.other rfl) .nil
  | leave hf => exact .cons (.other rfl) .nil
  | _ => exact .nil

theorem Change.fresh (h : Change m es m') : m.shared.fresh ≤ m'.shared.fresh := by
  obtain ⟨-, h⟩ | ⟨-, h⟩ := h.stamps
  · exact h
  · exact Nat.le_of_lt h

theorem Change.calls (h : Change m es' m') (ha : m.Account policy es) :
    ∀ e ∈ es', e.call < m'.shared.fresh := by
  intro e he
  cases h with
  | call _ =>
    obtain rfl := List.mem_singleton.1 he
    exact Nat.lt_succ_self _
  | turn hf hp =>
    obtain ⟨x, -, rfl⟩ := List.mem_map.1 he
    exact Nat.lt_of_lt_of_le (ha.numbered.bound (live_of_frames hf)) hp.keeps.fresh
  | leave hf =>
    obtain rfl := List.mem_singleton.1 he
    exact ha.numbered.bound (live_of_frames hf)
  | _ => cases he

theorem Change.policy_eq (h : Change m es m') : m'.shared.policy = m.shared.policy := by
  cases h with
  | turn _ hp => exact hp.keeps.policy
  | _ => rfl

theorem Change.account (h : Change m es' m') (ha : m.Account policy es) :
    m'.Account policy (es ++ es') where
  policy := h.policy_eq.trans ha.policy
  shaped := h.shaped ha.shaped
  numbered := h.numbered ha.numbered
  guarded := h.guarded ha.numbered ha.guarded
  stamped := h.stamped ha
  replays := ha.replays.append (h.replays ha)
  increasing := by
    rw [stamps_append, List.pairwise_append]
    obtain ⟨h, -⟩ | ⟨h, -⟩ := h.stamps
    · simpa [h] using ha.increasing
    · simpa [h] using ⟨ha.increasing, ha.bound⟩
  bound := by
    intro n hn
    rw [stamps_append, List.mem_append] at hn
    obtain ⟨h, hle⟩ | ⟨h, hlt⟩ := h.stamps
    · rw [h] at hn
      exact Nat.lt_of_lt_of_le (ha.bound n (by simpa using hn)) hle
    · obtain hn | hn := hn
      · exact Nat.lt_trans (ha.bound n hn) hlt
      · rw [h, List.mem_singleton] at hn
        rwa [hn]
  calls := by
    intro e he
    obtain he | he := List.mem_append.1 he
    · exact Nat.lt_of_lt_of_le (ha.calls e he) h.fresh
    · exact h.calls ha e he

theorem Account.start (policy : Policy) (clock interval : Int) :
    (Machine.start policy clock interval).Account policy [] where
  policy := rfl
  shaped := Shaped.start policy clock interval
  numbered := Numbered.start policy clock interval
  guarded := Guarded.start policy clock interval
  stamped := Stamped.start policy clock interval
  replays := .nil
  increasing := .nil
  bound := by simp [Lapse.stamps]
  calls := by simp

theorem Trace.account_from (h : Trace m es' m') (ha : m.Account policy es) :
    m'.Account policy (es ++ es') := by
  induction h with
  | start => rwa [List.append_nil]
  | next _ hc ih =>
    rw [← List.append_assoc]
    exact hc.account ih

theorem Trace.account {clock interval : Int} (h : Trace (.start policy clock interval) es m) :
    m.Account policy es :=
  h.account_from (.start policy clock interval)

end Machine

end Lapse
