import Lapse.Proofs.Dialog

namespace Lapse.Machine

variable {policy : Policy} {clock interval : Int} {m : Machine} {pre post es : List Timed} {t : Tid}
  {c : Nat} {op : Op} {p : Point} {e : Timed}

inductive Fate (policy : Policy) (es : List Timed) (m : Machine) (t : Tid) (c : Nat) (op : Op) :
    Prop
  | progress {p : Point} : m.Live t c p → Story policy t c op es p → Fate policy es m t c op
  | returned {pre post : List Timed} {e : Timed} (o : Outcome) : es = pre ++ e :: post →
    e.thread = t → e.call = c → e.what = .returned o → Story policy t c op pre (.done o) →
    (∀ x ∈ post, x.call ≠ c) → Fate policy es m t c op

theorem Origin.not_returned (h : Origin policy pre e) :
    ∀ x ∈ pre, x.call = e.call → x.what.returned? = none := by
  intro x hx hc
  cases h with
  | called op _ ha hfresh =>
    have := ha.calls x hx
    omega
  | returned o _ hstory => exact hstory.not_returned x (mem_trail.2 ⟨hx, hc⟩)
  | turn hs hs' hstory _ _ hp _ hpre =>
    subst hpre
    obtain hx | hx := List.mem_append.1 hx
    · exact hstory.not_returned x (mem_trail.2 ⟨hx, hc⟩)
    · obtain ⟨y, hy, rfl⟩ := List.mem_map.1 hx
      cases y with
      | returned o => exact absurd (List.mem_append_left _ hy) (hp.inner.2 o)
      | _ => rfl

theorem Trace.over (h : Trace (.start policy clock interval) es m) (he : es = pre ++ e :: post)
    {o : Outcome} (hw : e.what = .returned o) : ∀ x ∈ post, x.call ≠ e.call := by
  intro x hx hc
  obtain ⟨p, q, rfl⟩ := List.append_of_mem hx
  have hsplit : es = (pre ++ e :: p) ++ x :: q := by simp [he]
  have := (h.origin hsplit).not_returned e (by simp) hc.symm
  simp [hw, Happening.returned?] at this

theorem Story.began (h : Story policy t c op es p) {b : Timed} {op' : Op} (hb : b ∈ es)
    (hc : b.call = c) (hw : b.what = .called op') : op' = op ∧ b.thread = t := by
  obtain ⟨now, l, hl, hn⟩ := h.trail_eq
  have : b ∈ trail es c := mem_trail.2 ⟨hb, hc⟩
  rw [hl, List.mem_cons] at this
  obtain rfl | hm := this
  · cases hw
    exact ⟨rfl, rfl⟩
  · exact absurd hw (hn b hm op')

theorem Story.thread (h : Story policy t c op es p) : ∀ e ∈ trail es c, e.thread = t := by
  induction h with
  | @call m es ha hc =>
    subst hc
    rw [trail_append, ha.trail_fresh, trail_tell]
    simp [Shared.tell]
  | @turn m es p hs s course _ _ _ _ ih =>
    rw [trail_append, trail_tell]
    intro e he
    obtain he | he := List.mem_append.1 he
    · exact ih e he
    · obtain ⟨x, -, rfl⟩ := List.mem_map.1 he
      rfl
  | fail _ _ _ ih => exact ih
  | others _ ho ih => rwa [trail_append, trail_eq_nil ho, List.append_nil]

theorem Trace.fate (h : Trace (.start policy clock interval) es m) {b : Timed} (hb : b ∈ es)
    (hw : b.what = .called op) : Fate policy es m b.thread b.call op := by
  obtain ⟨p, hl⟩ | ⟨e, he, hc, o, ho⟩ := h.live_or_returned hb hw
  · obtain ⟨op', hstory⟩ := h.story hl
    obtain ⟨rfl, -⟩ := hstory.began hb rfl hw
    exact .progress hl hstory
  · obtain ⟨pre, post, rfl⟩ := List.append_of_mem he
    obtain ⟨op', hstory⟩ := h.return_origin rfl ho
    have hover := h.over rfl ho
    have hpre : b ∈ pre := by
      obtain hb | hb := List.mem_append.1 hb
      · exact hb
      obtain rfl | hb := List.mem_cons.1 hb
      · simp [hw] at ho
      · exact absurd hc.symm (hover b hb)
    rw [hc] at hstory hover
    obtain ⟨rfl, ht⟩ := hstory.began hpre rfl hw
    exact .returned o rfl ht.symm hc ho (ht ▸ hstory) hover

end Lapse.Machine
