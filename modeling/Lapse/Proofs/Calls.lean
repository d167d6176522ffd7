import Mathlib.Data.List.Nodup
import Lapse.Proofs.Change

namespace Lapse

namespace Machine

def Live (m : Machine) (t : Tid) (call : Nat) (p : Point) : Prop := ⟨call, p⟩ ∈ m.frames t

structure Numbered (m : Machine) : Prop where
  bound : ∀ {t : Tid} {call : Nat} {p : Point}, m.Live t call p → call < m.shared.fresh
  apart : ∀ {t u : Tid} {call : Nat} {p q : Point}, m.Live t call p → m.Live u call q → t = u
  once : ∀ t, ((m.frames t).map (·.call)).Nodup

variable {m m' : Machine} {t u : Tid} {c d : Nat} {p q : Point} {rest : List Frame}

theorem live_of_frames (hf : m.frames t = ⟨c, p⟩ :: rest) : m.Live t c p := by
  rw [Live, hf]
  exact List.mem_cons_self

theorem Numbered.point_unique (hn : m.Numbered) (hp : m.Live t c p) (hq : m.Live u c q) :
    p = q := by
  obtain rfl := hn.apart hp hq
  have := List.inj_on_of_nodup_map (hn.once t) hp hq rfl
  simpa using this

theorem Numbered.mem_rest (hn : m.Numbered) (hf : m.frames t = ⟨c, p⟩ :: rest) :
    ⟨d, q⟩ ∈ rest ↔ m.Live t d q ∧ d ≠ c := by
  have hno := hn.once t
  rw [hf, List.map_cons, List.nodup_cons] at hno
  rw [Live, hf, List.mem_cons]
  constructor
  · intro h
    refine ⟨.inr h, ?_⟩
    rintro rfl
    exact hno.1 (List.mem_map.2 ⟨_, h, rfl⟩)
  · rintro ⟨h | h, hne⟩
    · cases h
      exact absurd rfl hne
    · exact h

theorem live_set {s : Shared} {fs : List Frame} :
    Live ⟨s, m.calls.set t fs⟩ u d q ↔ u = t ∧ ⟨d, q⟩ ∈ fs ∨ u ≠ t ∧ m.Live u d q := by
  by_cases hu : u = t
  · subst hu
    simp [Live]
  · simp [Live, frames_mk_set_of_ne _ _ hu, hu]

theorem live_call {op : Op} :
    Live (m.push t op (m.frames t)).1 u d q ↔
      (u = t ∧ d = m.shared.fresh ∧ q = op.start) ∨ m.Live u d q := by
  rw [push, live_set, List.mem_cons]
  by_cases hu : u = t
  · subst hu
    simp [Live]
  · simp [hu]

theorem Numbered.live_turn (hn : m.Numbered) (hf : m.frames t = ⟨c, p⟩ :: rest) {s : Shared}
    {p' : Point} :
    Live ⟨s, m.calls.set t (⟨c, p'⟩ :: rest)⟩ u d q ↔
      (u = t ∧ d = c ∧ q = p') ∨ m.Live u d q ∧ d ≠ c := by
  rw [live_set, List.mem_cons, hn.mem_rest hf]
  by_cases hu : u = t
  · subst hu
    simp
  · have : m.Live u d q → d ≠ c := by
      rintro h rfl
      exact hu (hn.apart h (live_of_frames hf))
    simpa [hu] using this

theorem Numbered.live_leave (hn : m.Numbered) (hf : m.frames t = ⟨c, p⟩ :: rest) :
    Live (m.setFrames t rest) u d q ↔ m.Live u d q ∧ d ≠ c := by
  rw [setFrames, live_set, hn.mem_rest hf]
  by_cases hu : u = t
  · subst hu
    simp
  · have : m.Live u d q → d ≠ c := by
      rintro h rfl
      exact hu (hn.apart h (live_of_frames hf))
    simpa [hu] using this

theorem Numbered.start (policy : Policy) (clock interval : Int) :
    (Machine.start policy clock interval).Numbered where
  bound h := by simp [Live] at h
  apart h := by simp [Live] at h
  once t := by simp

theorem once_set (hn : m.Numbered) {s : Shared} {fs : List Frame}
    (hfs : (fs.map (·.call)).Nodup) (u : Tid) :
    ((frames ⟨s, m.calls.set t fs⟩ u).map (·.call)).Nodup := by
  by_cases hu : u = t
  · subst hu
    rwa [frames_mk_set]
  · rw [frames_mk_set_of_ne _ _ hu]
    exact hn.once u

theorem Numbered.replace (hn : m.Numbered) (hf : m.frames t = ⟨c, p⟩ :: rest) {s : Shared}
    (hs : m.shared.fresh ≤ s.fresh) (p' : Point) :
    Numbered ⟨s, m.calls.set t (⟨c, p'⟩ :: rest)⟩ where
  bound h := by
    obtain ⟨rfl, rfl, rfl⟩ | ⟨h, -⟩ := (hn.live_turn hf).1 h
    · exact Nat.lt_of_lt_of_le (hn.bound (live_of_frames hf)) hs
    · exact Nat.lt_of_lt_of_le (hn.bound h) hs
  apart h h' := by
    rw [hn.live_turn hf] at h h'
    obtain ⟨rfl, rfl, -⟩ | ⟨h, hd⟩ := h
    · obtain ⟨rfl, -⟩ | ⟨-, hd'⟩ := h'
      · rfl
      · exact absurd rfl hd'
    · obtain ⟨-, rfl, -⟩ | ⟨h', -⟩ := h'
      · exact absurd rfl hd
      · exact hn.apart h h'
  once := by
    apply once_set hn
    have := hn.once t
    rwa [hf] at this

theorem Numbered.call (hn : m.Numbered) (t : Tid) (op : Op) :
    (m.push t op (m.frames t)).1.Numbered where
  bound h := by
    obtain ⟨-, rfl, -⟩ | h := live_call.1 h
    · exact Nat.lt_succ_self _
    · exact Nat.lt_succ_of_lt (hn.bound h)
  apart h h' := by
    rw [live_call] at h h'
    obtain ⟨rfl, rfl, -⟩ | h := h
    · obtain ⟨rfl, -⟩ | h' := h'
      · rfl
      · exact absurd (hn.bound h') (Nat.lt_irrefl _)
    · obtain ⟨-, rfl, -⟩ | h' := h'
      · exact absurd (hn.bound h) (Nat.lt_irrefl _)
      · exact hn.apart h h'
  once := by
    apply once_set hn
    rw [List.map_cons, List.nodup_cons]
    refine ⟨?_, hn.once t⟩
    intro h
    obtain ⟨f, hf, hc⟩ := List.mem_map.1 h
    have hlt : f.call < m.shared.fresh := hn.bound hf
    exact Nat.lt_irrefl _ (hc ▸ hlt)

theorem Numbered.leave (hn : m.Numbered) (hf : m.frames t = ⟨c, p⟩ :: rest) :
    (m.setFrames t rest).Numbered where
  bound h := hn.bound ((hn.live_leave hf).1 h).1
  apart h h' := hn.apart ((hn.live_leave hf).1 h).1 ((hn.live_leave hf).1 h').1
  once := by
    apply once_set hn
    have := hn.once t
    rw [hf] at this
    exact (List.nodup_cons.1 this).2

theorem Change.numbered {es : List Timed} (h : Change m es m') (hn : m.Numbered) :
    m'.Numbered := by
  cases h with
  | advance ns => exact ⟨hn.bound, hn.apart, hn.once⟩
  | call _ => exact hn.call ..
  | turn hf hp => exact hn.replace hf hp.keeps.fresh _
  | leave hf => exact hn.leave hf
  | fail f hf _ => exact hn.replace hf (Nat.le_refl _) _

end Machine

end Lapse
