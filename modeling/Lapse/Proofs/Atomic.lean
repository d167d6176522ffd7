import Lapse.Proofs.Instant
import Lapse.Proofs.Residence

namespace Lapse

def Effect (c : Nat) (es : List Timed) : Op → Outcome → Prop
  | .fetch key ttl, o => Fetch.Ended c key ttl (trail es c) o
  | .erase key, _ => Instant es c (Erases c key)
  | .clear, _ => ∀ e ∈ trail es c, e.what.written? = none
  | .sweep, _ => ∀ e ∈ trail es c, e.what.written? = none
  | .size, o =>
    Quiet (trail es c) ∧ Instant es c fun _ chart _ => o = .ok (.count chart.size)
  | .listing, o =>
    Quiet (trail es c) ∧ Instant es c fun _ chart _ => o = .ok (.listing chart.toList)
  | .interval, _ => Quiet (trail es c)
  | .setInterval _, _ => Quiet (trail es c)

structure Atomic (es : List Timed) (m : Machine) : Prop where
  simulated : Chart.empty.run? (actions (es.map (·.what))) = some m.shared.store.chart
  step : ∀ {l : Label} {m' : Machine} {evs : List Event}, m.next? l = some (m', evs) →
    (actions (evs.map (·.what))).length ≤ 1 ∧
      m.shared.store.chart.run? (actions (evs.map (·.what))) = some m'.shared.store.chart
  effect : ∀ {i : Nat} {e : Timed} {o : Outcome}, es[i]? = some e → e.what = .returned o →
    ∃ b op, b ∈ es.take i ∧ b.call = e.call ∧ b.what = .called op ∧
      Effect e.call (es.take i) op o

namespace Machine

variable {policy : Policy} {clock interval : Int} {m : Machine} {es : List Timed}

theorem Trace.not_written (h : Trace (.start policy clock interval) es m)
    {pre post : List Timed} (he : es = pre ++ post) {t : Tid} {c : Nat} {op : Op} {p : Point}
    (hs : Story policy t c op pre p) (hop : ∀ key ttl, op ≠ .fetch key ttl) :
    ∀ e ∈ trail pre c, e.what.written? = none := by
  intro e hmem
  obtain ⟨hmem, hc⟩ := mem_trail.1 hmem
  obtain ⟨q, q', hpre⟩ := List.append_of_mem hmem
  have hsplit : es = q ++ e :: (q' ++ post) := by simp [he, hpre]
  cases hr : e.what.written? with
  | none => rfl
  | some r =>
    obtain ⟨key, ttl, k, n, ⟨b, hb, hbc, hbw⟩, -⟩ := (h.origin hsplit).puts hr
    have hb : b ∈ pre := by
      rw [hpre]
      exact List.mem_append_left _ hb
    exact absurd (hs.called hb (hbc.trans hc) hbw).symm (hop key ttl)

theorem Trace.quiet (h : Trace (.start policy clock interval) es m) {pre post : List Timed}
    (he : es = pre ++ post) {t : Tid} {c : Nat} {op : Op} {p : Point}
    (hs : Story policy t c op pre p) (hop : ∀ key ttl, op ≠ .fetch key ttl)
    (hop' : ∀ key, op ≠ .erase key) (hclear : op ≠ .clear) (hsweep : op ≠ .sweep) :
    Quiet (trail pre c) := by
  intro e hmem
  have hw := h.not_written he hs hop e hmem
  cases hx : e.what with
  | deleted k r =>
    obtain ⟨hmem, hc⟩ := mem_trail.1 hmem
    obtain ⟨q, q', hpre⟩ := List.append_of_mem hmem
    have hsplit : es = q ++ e :: (q' ++ post) := by simp [he, hpre]
    have old : ∀ {b op'}, b ∈ q → b.call = e.call → b.what = .called op' → op' = op := by
      intro b op' hb hbc hbw
      have hb : b ∈ pre := by
        rw [hpre]
        exact List.mem_append_left _ hb
      exact hs.called hb (hbc.trans hc) hbw
    cases (h.origin hsplit).removes hx with
    | erase key hb hbc hbw => exact absurd (old hb hbc hbw).symm (hop' key)
    | clear hb hbc hbw => exact absurd (old hb hbc hbw).symm hclear
    | sweep now hb hbc hbw => exact absurd (old hb hbc hbw).symm hsweep
  | inserted | overwritten | renewed => simp [hx, Happening.written?] at hw
  | _ => rfl

theorem Trace.effect (h : Trace (.start policy clock interval) es m) {pre post : List Timed}
    (he : es = pre ++ post) {t : Tid} {c : Nat} {op : Op} {o : Outcome}
    (hs : Story policy t c op pre (.done o)) : Effect c pre op o := by
  cases op with
  | fetch key ttl => exact hs.fetches
  | erase key => exact hs.erases
  | clear => exact h.not_written he hs (by simp)
  | sweep => exact h.not_written he hs (by simp)
  | size =>
    exact ⟨h.quiet he hs (by simp) (by simp) (by simp) (by simp), hs.views (.inl ⟨rfl, rfl⟩)⟩
  | listing =>
    exact ⟨h.quiet he hs (by simp) (by simp) (by simp) (by simp), hs.views (.inr ⟨rfl, rfl⟩)⟩
  | interval => exact h.quiet he hs (by simp) (by simp) (by simp) (by simp)
  | setInterval ns => exact h.quiet he hs (by simp) (by simp) (by simp) (by simp)

end Machine

/-- In every run, whatever callbacks do, the store refines the abstract map. -/
theorem Run.atomic {policy : Policy} {clock interval : Int} {h : List Move} {m : Machine}
    (hr : Run (.start policy clock interval) h m) : Atomic (chronicle clock h) m := by
  have ht := hr.trace
  constructor
  case simulated => simpa using ht.account.replays.acts .empty
  case step => exact fun hl => ⟨Machine.actions_next?_le hl, ht.account.acts hl⟩
  case effect =>
    intro i e o he hw
    obtain ⟨pre, post, hes, rfl⟩ := split_at he
    rw [hes, List.take_left]
    cases ht.origin hes with
    | called op ho => simp [hw] at ho
    | turn hs hs' _ _ _ hp =>
      rw [hw] at hp
      exact absurd (List.mem_append_right _ List.mem_cons_self) (hp.inner.2 o)
    | returned o' ho hstory =>
      rw [hw] at ho
      cases ho
      obtain ⟨b, hb, hc, hbw⟩ := hstory.mem_called
      exact ⟨b, _, hb, hc, hbw, ht.effect hes hstory⟩

def joint : List Label :=
  List.flatten [
    [.call 0 (.fetch (.int 1) (.int 5))], .replicate 10 (.step 0),
    [.call 1 (.fetch (.bool true) (.int 7))], .replicate 10 (.step 1),
    [.reply 0 (.ok (.text "v"))], .replicate 5 (.step 0), .replicate 9 (.step 1),
    [.call 1 .listing], .replicate 9 (.step 1),
    [.call 0 (.erase (.int 1))], .replicate 9 (.step 0)]

theorem atomic_joint :
    ∃ h m, Run (.start ⟨false, false⟩ 0 1000) h m ∧ Atomic (chronicle 0 h) m ∧
      (actions ((chronicle 0 h).map (·.what))).length = 3 ∧
      m.shared.store.chart.size = 0 :=
  ⟨_, _, .perform _ joint, (Run.perform _ joint).atomic, by decide +kernel, by decide +kernel⟩

end Lapse
