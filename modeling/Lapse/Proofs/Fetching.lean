import Lapse.Proofs.Story

namespace Lapse

def Quiet (l : List Timed) : Prop := ∀ e ∈ l, e.what.touched? = none

theorem Quiet.append {l l' : List Timed} (h : Quiet l) (h' : Quiet l') : Quiet (l ++ l') := by
  intro e he
  obtain he | he := List.mem_append.1 he
  · exact h e he
  · exact h' e he

theorem Quiet.tell {s : Shared} {t : Tid} {c : Nat} {hs : List Happening}
    (h : ∀ x ∈ hs, x.touched? = none) : Quiet (s.tell t c hs) := by
  intro e he
  obtain ⟨x, hx, rfl⟩ := List.mem_map.1 he
  exact h x hx

namespace Fetch

structure Means (c : Nat) (key ttl : Value) (k : Key) (n : Int) : Prop where
  key : key.toKey c = .ok k
  ttl : ttl.toInteger = .ok n

/-- How a fetch that showed `l` puts a record: as a renewal, with the time counted from then, or
as its supplier's value, with the time counted from the supplier's end. -/
inductive Puts (k : Key) (n : Int) (l : List Timed) (w : Timed) (r : Record) : Prop
  | renewed : w.what = .renewed k r → r.deadline = w.clock + n → Puts k n l w r
  | inserted {l' : List Timed} {a y : Timed} : w.what = .inserted k r → l = l' ++ [a, y] →
    a.what = .asked (.supply k) → y.what = .replied (.ok r.value) → r.deadline = y.clock + n →
    Puts k n l w r

inductive Written (c : Nat) (key ttl : Value) (l : List Timed) (v : Value) : Prop
  | intro {k : Key} {n : Int} {l₁ l₂ : List Timed} {w : Timed} {r : Record} :
    Means c key ttl k n → l = l₁ ++ w :: l₂ → Quiet l₁ → Puts k n l₁ w r → Quiet l₂ →
    r.value = v → Written c key ttl l v

def Ended (c : Nat) (key ttl : Value) (l : List Timed) : Outcome → Prop
  | .ok a => ∃ v, a = .value v ∧ Written c key ttl l v
  | .error _ => Quiet l

def Tale (c : Nat) (key ttl : Value) (l : List Timed) : Fetch → Prop
  | coerce key' ttl' => key' = key ∧ ttl' = ttl ∧ Quiet l
  | lookup key' n => key' = key ∧ ttl.toInteger = .ok n ∧ Quiet l
  | register k n => Means c key ttl k n ∧ Quiet l
  | acquire k n _ => Means c key ttl k n ∧ Quiet l
  | claim k n _ => Means c key ttl k n ∧ Quiet l
  | again k n _ => Means c key ttl k n ∧ Quiet l
  | supply k n _ =>
    Means c key ttl k n ∧ Quiet l ∧ ∃ l' a, l = l' ++ [a] ∧ a.what = .asked (.supply k)
  | insert k _ x => Quiet l ∧ ∃ n l' a y, Means c key ttl k n ∧ l = l' ++ [a, y] ∧
    a.what = .asked (.supply k) ∧ y.what = .replied (.ok x.value) ∧ x.deadline = y.clock + n
  | withdraw _ _ o => Ended c key ttl l o
  | release _ o => Ended c key ttl l o

variable {c : Nat} {key ttl : Value} {l l' : List Timed}

theorem Written.append {v : Value} (h : Written c key ttl l v) (hl : Quiet l') :
    Written c key ttl (l ++ l') v := by
  obtain ⟨hm, rfl, h₁, hw, h₂, hv⟩ := h
  exact ⟨hm, by simp, h₁, hw, h₂.append hl, hv⟩

theorem Ended.append {o : Outcome} (h : Ended c key ttl l o) (hl : Quiet l') :
    Ended c key ttl (l ++ l') o := by
  cases o with
  | ok a =>
    obtain ⟨v, rfl, h⟩ := h
    exact ⟨v, rfl, h.append hl⟩
  | error f => exact Quiet.append h hl

theorem Written.last {k : Key} {n : Int} {w : Timed} {r : Record} {v : Value}
    (hm : Means c key ttl k n) (hl : Quiet l) (hw : Puts k n l w r) (hv : r.value = v) :
    Written c key ttl (l ++ [w]) v :=
  ⟨hm, rfl, hl, hw, by simp [Quiet], hv⟩

end Fetch

namespace Point

def Fetches (c : Nat) (key ttl : Value) (l : List Timed) : Point → Prop
  | .fetch f => f.Tale c key ttl l
  | .done o => Fetch.Ended c key ttl l o
  | _ => True

end Point

theorem Fetch.Goes.tale {s s' : Shared} {t : Tid} {c : Nat} {key ttl : Value} {l : List Timed}
    {f : Fetch} {hs : List Happening} {course : Course Fetch} (h : f.Goes s t c hs s' course)
    (hm : ∀ {k}, f.making? = some k → s.store.contains k = false) (ht : f.Tale c key ttl l) :
    (course.map .fetch).next.Fetches c key ttl (l ++ s.tell t c hs) := by
  cases h with
  | refused _ => exact ht.2.2.append (.tell (by simp))
  | coerced hn =>
    obtain ⟨rfl, rfl, hl⟩ := ht
    exact ⟨rfl, hn, hl.append (.tell (by simp))⟩
  | unkeyed _ => exact ht.2.2.append (.tell (by simp))
  | @found _ n k r hk hr =>
    obtain ⟨rfl, hn, hl⟩ := ht
    have hw : Puts k n l ⟨⟨t, c, _⟩, s.clock⟩ (s.record (r.toLease.renewed s.clock n)) :=
      .renewed rfl rfl
    exact ⟨r.value, rfl, .last ⟨hk, hn⟩ hl hw rfl⟩
  | missed hk _ =>
    obtain ⟨rfl, hn, hl⟩ := ht
    exact ⟨⟨hk, hn⟩, hl.append (.tell (by simp))⟩
  | @foundLate k n r hr =>
    obtain ⟨hk, hl⟩ := ht
    have hw : Puts k n l ⟨⟨t, c, _⟩, s.clock⟩ (s.record (r.toLease.renewed s.clock n)) :=
      .renewed rfl rfl
    exact ⟨r.value, rfl, .last hk hl hw rfl⟩
  | created | joined | acquired | stale | retried =>
    obtain ⟨hk, hl⟩ := ht
    exact ⟨hk, hl.append (.tell (by simp [Happening.touched?]))⟩
  | recursive =>
    obtain ⟨hk, hl⟩ := ht
    exact hl.append (.tell (by simp))
  | claimed =>
    obtain ⟨hk, hl⟩ := ht
    exact ⟨hk, hl.append (.tell (by simp [Happening.touched?])), l, _, rfl, rfl⟩
  | supplied v =>
    obtain ⟨hk, hl, l', a, rfl, ha⟩ := ht
    refine ⟨hl.append (.tell (by simp [Happening.touched?])), _, l', a,
      ⟨⟨t, c, .replied (.ok v)⟩, s.clock⟩, hk, ?_, ha, rfl, rfl⟩
    simp [Shared.tell]
  | unsupplied f =>
    obtain ⟨hk, hl, -⟩ := ht
    exact hl.append (.tell (by simp [Happening.touched?]))
  | @inserted k _ x _ =>
    obtain ⟨hl, n, l', a, y, hk, rfl, ha, hy, hd⟩ := ht
    have hw : Puts k n (l' ++ [a, y]) ⟨⟨t, c, _⟩, s.clock⟩ (s.record x) :=
      .inserted rfl rfl ha hy hd
    exact ⟨x.value, rfl, .last hk hl hw rfl⟩
  | overwritten hk => simp [hm rfl] at hk
  | withdrawn | lost | released =>
    exact ht.append (.tell (by simp [Happening.touched?]))

theorem Fetch.Goes.puts {s s' : Shared} {t : Tid} {c : Nat} {key ttl : Value} {l : List Timed}
    {f : Fetch} {hs : List Happening} {course : Course Fetch} (h : f.Goes s t c hs s' course)
    (hm : ∀ {k}, f.making? = some k → s.store.contains k = false) (ht : f.Tale c key ttl l)
    {x : Happening} {r : Record} (hx : x ∈ hs) (hr : x.written? = some r) :
    hs = [x] ∧ ∃ k n, Means c key ttl k n ∧ x.touched? = some k ∧
      Puts k n l ⟨⟨t, c, x⟩, s.clock⟩ r := by
  cases h with
  | found hk _ =>
    obtain ⟨rfl, hn, hl⟩ := ht
    obtain rfl := List.mem_singleton.1 hx
    cases hr
    exact ⟨rfl, _, _, ⟨hk, hn⟩, rfl, .renewed rfl rfl⟩
  | foundLate _ =>
    obtain rfl := List.mem_singleton.1 hx
    cases hr
    exact ⟨rfl, _, _, ht.1, rfl, .renewed rfl rfl⟩
  | inserted _ =>
    obtain ⟨hl, n, l', a, y, hk, rfl, ha, hy, hd⟩ := ht
    obtain rfl := List.mem_singleton.1 hx
    cases hr
    exact ⟨rfl, _, n, hk, rfl, .inserted rfl rfl ha hy hd⟩
  | overwritten hk => simp [hm rfl] at hk
  | created | joined | claimed | stale | supplied | unsupplied | withdrawn =>
    obtain rfl := List.mem_singleton.1 hx
    cases hr
  | _ => cases hx

theorem Point.Goes.fetch_of_written {s s' : Shared} {t : Tid} {c : Nat} {p : Point}
    {hs : List Happening} {course : Course Point} (h : p.Goes s t c hs s' course)
    {x : Happening} {r : Record} (hx : x ∈ hs) (hr : x.written? = some r) :
    ∃ f, p = .fetch f := by
  suffices (∃ f, p = .fetch f) ∨ ∀ y ∈ hs, y.written? = none by
    obtain h | h := this
    · exact h
    · simp [h x hx] at hr
  cases h with
  | @fetch f => exact .inl ⟨f, rfl⟩
  | erase h => right; cases h <;> simp [Happening.written?]
  | clear h => right; cases h <;> simp [Happening.written?]
  | sweep h => right; cases h <;> simp [Happening.written?]
  | _ => right; simp

theorem Machine.Story.fetches {policy : Policy} {t : Tid} {c : Nat} {key ttl : Value}
    {es : List Timed} {p : Point} (h : Story policy t c (.fetch key ttl) es p) :
    p.Fetches c key ttl (trail es c) := by
  induction h with
  | @call m es ha hc =>
    subst hc
    rw [trail_append, ha.trail_fresh, trail_tell]
    exact ⟨rfl, rfl, by simp [Quiet, Shared.tell, Happening.touched?]⟩
  | @turn m es p hs s course h ha hl hp ih =>
    rw [trail_append, trail_tell]
    have hop := h.admits
    cases hp with
    | fetch hf => exact hf.tale (fun hk => ha.absent hl hk) ih
    | _ => cases hop
  | @fail es p f h hw ih =>
    have hop := h.admits
    cases p with
    | fetch f =>
      cases f with
      | lookup => exact ih.2.2
      | _ => cases hw
    | erase => cases hop
    | _ => cases hw
  | others _ ho ih => rwa [trail_append, trail_eq_nil ho, List.append_nil]

theorem Machine.Origin.puts {policy : Policy} {pre : List Timed} {e : Timed} {r : Record}
    (h : Origin policy pre e) (hr : e.what.written? = some r) :
    ∃ key ttl k n, (∃ b ∈ pre, b.call = e.call ∧ b.what = .called (.fetch key ttl)) ∧
      Fetch.Means e.call key ttl k n ∧ e.what.touched? = some k ∧
        Fetch.Puts k n (trail pre e.call) e r := by
  cases h with
  | called op he => simp [he, Happening.written?] at hr
  | returned o he => simp [he, Happening.written?] at hr
  | @turn m es op p s course hs hs' hstory ha hl hp hclock hpre =>
    obtain ⟨f, rfl⟩ := hp.fetch_of_written (by simp) hr
    have hop := hstory.admits
    cases op with
    | fetch key ttl =>
      cases hp with
      | fetch hf =>
        obtain ⟨hone, k, n, hm, hk, hw⟩ :=
          hf.puts (fun hk => ha.absent hl hk) hstory.fetches (by simp) hr
        obtain ⟨rfl, -⟩ := append_cons_eq_singleton hone
        rw [Shared.tell, List.map_nil, List.append_nil] at hpre
        subst hpre
        rw [← hclock] at hw
        exact ⟨key, ttl, k, n, hstory.mem_called, hm, hk, hw⟩
    | _ => cases hop

end Lapse
