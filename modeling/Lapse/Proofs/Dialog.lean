import Mathlib.Data.List.Induction
import Lapse.Proofs.Fetching

namespace Lapse

theorem pairwise_of_split {α : Type} {R : α → α → Prop} {xs : List α}
    (h : ∀ pre x post, xs = pre ++ x :: post → ∀ y ∈ pre, R y x) : xs.Pairwise R := by
  induction xs using List.reverseRecOn with
  | nil => exact .nil
  | append_singleton xs x ih =>
    rw [List.pairwise_append]
    refine ⟨ih fun pre y post hs => h pre y (post ++ [x]) (by simp [hs]), by simp, ?_⟩
    intro y hy z hz
    obtain rfl := List.mem_singleton.1 hz
    exact h xs z [] rfl y hy

namespace Happening

def asks : Happening → Bool
  | asked _ => true
  | _ => false

def replied? : Happening → Option Reply
  | replied r => some r
  | _ => none

def returned? : Happening → Option Outcome
  | returned o => some o
  | _ => none

end Happening

def Silent (l : List Timed) : Prop := ∀ e ∈ l, e.what.asks = false ∧ e.what.replied? = none

theorem Silent.append {l l' : List Timed} (h : Silent l) (h' : Silent l') : Silent (l ++ l') := by
  intro e he
  obtain he | he := List.mem_append.1 he
  · exact h e he
  · exact h' e he

theorem Silent.tell {s : Shared} {t : Tid} {c : Nat} {hs : List Happening}
    (h : ∀ x ∈ hs, x.asks = false ∧ x.replied? = none) : Silent (s.tell t c hs) := by
  intro e he
  obtain ⟨x, hx, rfl⟩ := List.mem_map.1 he
  exact h x hx

inductive Asks (k : Key) (l : List Timed) : Prop
  | intro {l₁ : List Timed} {a : Timed} : l = l₁ ++ [a] → Silent l₁ →
    a.what = .asked (.supply k) → Asks k l

inductive Learns (k : Key) (r : Reply) (l : List Timed) : Prop
  | intro {l₁ l₂ : List Timed} {a b : Timed} : l = l₁ ++ a :: b :: l₂ → Silent l₁ →
    a.what = .asked (.supply k) → b.what = .replied r → Silent l₂ → Learns k r l

theorem Asks.learns {k : Key} {l : List Timed} (h : Asks k l) {e : Timed} {r : Reply}
    (hw : e.what = .replied r) : Learns k r (l ++ [e]) := by
  obtain ⟨rfl, hl, ha⟩ := h
  have split : ∀ l₁ (a : Timed), l₁ ++ [a] ++ [e] = l₁ ++ a :: e :: [] := by simp
  exact ⟨split .., hl, ha, hw, by simp [Silent]⟩

theorem Learns.append {k : Key} {r : Reply} {l l' : List Timed} (h : Learns k r l)
    (hl : Silent l') : Learns k r (l ++ l') := by
  obtain ⟨rfl, h₁, ha, hb, h₂⟩ := h
  exact ⟨by simp, h₁, ha, hb, h₂.append hl⟩

theorem Learns.reply {k : Key} {r r' : Reply} {l : List Timed} (h : Learns k r l) {e : Timed}
    (he : e ∈ l) (hw : e.what = .replied r') : r' = r := by
  obtain ⟨rfl, h₁, ha, hb, h₂⟩ := h
  simp only [List.mem_append, List.mem_cons] at he
  obtain he | rfl | rfl | he := he
  · exact absurd (h₁ e he).2 (by simp [hw, Happening.replied?])
  · simp [hw] at ha
  · rw [hw] at hb
    cases hb
    rfl
  · exact absurd (h₂ e he).2 (by simp [hw, Happening.replied?])

theorem Learns.mem {k : Key} {r : Reply} {l : List Timed} (h : Learns k r l) :
    (∃ e ∈ l, e.what = .asked (.supply k)) ∧ ∃ e ∈ l, e.what = .replied r := by
  obtain ⟨rfl, -, ha, hb, -⟩ := h
  exact ⟨⟨_, by simp, ha⟩, _, by simp, hb⟩

def Reply.outcome (r : Reply) : Outcome := r.map .value

def Fetch.Dialog (l : List Timed) : Fetch → Prop
  | supply k _ _ => Asks k l
  | insert k _ x => Learns k (.ok x.value) l
  | withdraw _ _ o => ∃ k r, Learns k r l ∧ o = r.outcome
  | release _ o => ∃ k r, Learns k r l ∧ o = r.outcome
  | _ => Silent l

def Point.Converses (l : List Timed) : Point → Prop
  | .fetch f => f.Dialog l
  | .done o => Silent l ∨ ∃ k r, Learns k r l ∧ o = r.outcome
  | _ => True

theorem Fetch.Goes.dialog {s s' : Shared} {t : Tid} {c : Nat} {l : List Timed} {f : Fetch}
    {hs : List Happening} {course : Course Fetch} (h : f.Goes s t c hs s' course)
    (hd : f.Dialog l) : (course.map .fetch).next.Converses (l ++ s.tell t c hs) := by
  cases h with
  | refused | unkeyed | recursive => exact .inl (Silent.append hd (.tell (by simp)))
  | found | foundLate =>
    exact .inl (Silent.append hd (.tell (by simp [Happening.asks, Happening.replied?])))
  | coerced | missed | created | joined | acquired | stale | retried =>
    exact Silent.append hd (.tell (by simp [Happening.asks, Happening.replied?]))
  | claimed => exact ⟨rfl, hd, rfl⟩
  | supplied v => exact Asks.learns hd rfl
  | unsupplied f => exact ⟨_, .error f, Asks.learns hd rfl, rfl⟩
  | inserted | overwritten =>
    exact ⟨_, _, Learns.append hd (.tell (by simp [Happening.asks, Happening.replied?])), rfl⟩
  | withdrawn | lost =>
    obtain ⟨k, r, hl, ho⟩ := hd
    exact ⟨k, r, hl.append (.tell (by simp [Happening.asks, Happening.replied?])), ho⟩
  | released =>
    obtain ⟨k, r, hl, ho⟩ := hd
    exact .inr ⟨k, r, hl.append (.tell (by simp)), ho⟩

namespace Machine

variable {policy : Policy} {clock interval : Int} {m : Machine} {es pre post : List Timed} {t : Tid}
  {c : Nat} {op : Op} {p : Point} {e : Timed}

theorem Story.converses {key ttl : Value} (h : Story policy t c (.fetch key ttl) es p) :
    p.Converses (trail es c) := by
  induction h with
  | @call m es ha hc =>
    subst hc
    rw [trail_append, ha.trail_fresh, trail_tell]
    exact Silent.tell (by simp [Happening.asks, Happening.replied?])
  | @turn m es p hs s course h ha hl hp ih =>
    rw [trail_append, trail_tell]
    have hop := h.admits
    cases hp with
    | fetch hf => exact hf.dialog ih
    | _ => cases hop
  | @fail es p f h hw ih =>
    have hop := h.admits
    cases p with
    | fetch f =>
      cases f with
      | lookup => exact .inl ih
      | _ => cases hw
    | erase => cases hop
    | _ => cases hw
  | others _ ho ih => rwa [trail_append, trail_eq_nil ho, List.append_nil]

theorem Story.not_returned (h : Story policy t c op es p) :
    ∀ e ∈ trail es c, e.what.returned? = none := by
  induction h with
  | @call m es ha hc =>
    subst hc
    rw [trail_append, ha.trail_fresh, trail_tell]
    simp [Shared.tell, Happening.returned?]
  | @turn m es p hs s course _ _ _ hp ih =>
    rw [trail_append, trail_tell]
    intro e he
    obtain he | he := List.mem_append.1 he
    · exact ih e he
    · obtain ⟨x, hx, rfl⟩ := List.mem_map.1 he
      cases x with
      | returned o => exact absurd hx (hp.inner.2 o)
      | _ => rfl
  | fail _ _ _ ih => exact ih
  | others _ ho ih => rwa [trail_append, trail_eq_nil ho, List.append_nil]

end Machine

theorem Point.Goes.claim_of_supply {s s' : Shared} {t : Tid} {call : Nat} {p : Point}
    {hs : List Happening} {c : Course Point} (h : p.Goes s t call hs s' c) {k : Key}
    (hk : .asked (.supply k) ∈ hs) : hs = [.asked (.supply k)] ∧
      ∃ ttl a, p = .fetch (.claim k ttl a) := by
  cases h with
  | fetch h =>
    cases h with
    | claimed _ =>
      obtain rfl : k = _ := by simpa using hk
      exact ⟨rfl, _, _, rfl⟩
    | _ => simp at hk
  | erase h => cases h <;> simp at hk
  | clear h => cases h <;> simp at hk
  | sweep h => cases h <;> simp at hk
  | _ => simp at hk

namespace Machine

variable {policy : Policy} {clock interval : Int} {m : Machine} {es pre post : List Timed}
  {e : Timed}

theorem Trace.supply_origin (h : Trace (.start policy clock interval) es m)
    (he : es = pre ++ e :: post) {k : Key} (hw : e.what = .asked (.supply k)) :
    ∃ key ttl n, Fetch.Means e.call key ttl k n ∧
      (∃ b ∈ pre, b.thread = e.thread ∧ b.call = e.call ∧ b.what = .called (.fetch key ttl)) ∧
      Silent (trail pre e.call) ∧ ∀ x ∈ trail pre e.call, x.what.returned? = none := by
  cases h.origin he with
  | called op ho => simp [hw] at ho
  | returned o ho => simp [hw] at ho
  | @turn m es₀ op p s course hs hs' hstory _ _ hp _ hpre =>
    have hmem : .asked (.supply k) ∈ hs ++ e.what :: hs' := by simp [hw]
    obtain ⟨hone, ttl, a, rfl⟩ := hp.claim_of_supply hmem
    obtain ⟨rfl, -⟩ := append_cons_eq_singleton (hw ▸ hone)
    rw [Shared.tell, List.map_nil, List.append_nil] at hpre
    subst hpre
    have hop := hstory.admits
    cases op with
    | fetch key ttl' =>
      obtain ⟨now, l, hl, -⟩ := hstory.trail_eq
      have hfirst : ⟨⟨e.thread, e.call, .called (.fetch key ttl')⟩, now⟩ ∈ trail pre e.call := by
        rw [hl]
        exact List.mem_cons_self
      exact ⟨key, ttl', ttl, hstory.fetches.1, ⟨_, (mem_trail.1 hfirst).1, rfl, rfl, rfl⟩,
        hstory.converses, hstory.not_returned⟩
    | _ => cases hop

theorem Trace.return_origin (h : Trace (.start policy clock interval) es m)
    (he : es = pre ++ e :: post) {o : Outcome} (hw : e.what = .returned o) :
    ∃ op, Story policy e.thread e.call op pre (.done o) := by
  cases h.origin he with
  | called op ho => simp [hw] at ho
  | turn hs hs' _ _ _ hp =>
    rw [hw] at hp
    exact absurd (List.mem_append_right _ List.mem_cons_self) (hp.inner.2 o)
  | returned o' ho hstory =>
    rw [hw] at ho
    cases ho
    exact ⟨_, hstory⟩

theorem Trace.call_origin (h : Trace (.start policy clock interval) es m)
    (he : es = pre ++ e :: post) {op : Op} (hw : e.what = .called op) :
    ∀ x ∈ pre, x.call ≠ e.call := by
  intro x hx hc
  cases h.origin he with
  | called _ _ ha hfresh =>
    have := ha.calls x hx
    omega
  | turn hs hs' _ _ _ hp =>
    rw [hw] at hp
    exact hp.inner.1 op (by simp)
  | returned o ho => simp [hw] at ho

theorem Trace.live_or_returned (h : Trace (.start policy clock interval) es m) {b : Timed} {op : Op}
    (hb : b ∈ es) (hw : b.what = .called op) :
    (∃ p, m.Live b.thread b.call p) ∨
      ∃ e ∈ es, e.call = b.call ∧ ∃ o, e.what = .returned o := by
  induction h with
  | start => cases hb
  | @next es es' m₁ m₂ ht hc ih =>
    have hn := ht.account.numbered
    obtain hb | hb := List.mem_append.1 hb
    · obtain ⟨p, hl⟩ | ⟨e, he, h⟩ := ih hb
      · cases hc with
        | advance ns => exact .inl ⟨p, hl⟩
        | call _ => exact .inl ⟨p, live_call.2 (.inr hl)⟩
        | @turn u d q rest hs s course hf hp =>
          by_cases hd : b.call = d
          · obtain rfl := hn.apart hl (hd ▸ live_of_frames hf)
            exact .inl ⟨_, (hn.live_turn hf).2 (.inl ⟨rfl, hd, rfl⟩)⟩
          · exact .inl ⟨p, (hn.live_turn hf).2 (.inr ⟨hl, hd⟩)⟩
        | @leave u d o rest hf =>
          by_cases hd : b.call = d
          · exact .inr ⟨_, List.mem_append_right _ List.mem_cons_self, hd.symm, o, rfl⟩
          · exact .inl ⟨p, (hn.live_leave hf).2 ⟨hl, hd⟩⟩
        | @fail u d q rest f hf _ =>
          by_cases hd : b.call = d
          · obtain rfl := hn.apart hl (hd ▸ live_of_frames hf)
            exact .inl ⟨_, (hn.live_turn hf).2 (.inl ⟨rfl, hd, rfl⟩)⟩
          · exact .inl ⟨p, (hn.live_turn hf).2 (.inr ⟨hl, hd⟩)⟩
      · exact .inr ⟨e, List.mem_append_left _ he, h⟩
    · cases hc with
      | call _ =>
        obtain rfl := List.mem_singleton.1 hb
        exact .inl ⟨_, live_call.2 (.inl ⟨rfl, rfl, rfl⟩)⟩
      | turn hf hp =>
        obtain ⟨x, hx, rfl⟩ := List.mem_map.1 hb
        cases hw
        exact absurd hx (hp.inner.1 op)
      | leave hf =>
        obtain rfl := List.mem_singleton.1 hb
        cases hw
      | _ => cases hb

end Machine

end Lapse
