import Mathlib.Data.List.Induction
import Lapse.Proofs.Calls

namespace Lapse

def Label.thread? : Label → Option Tid
  | .call t _ => some t
  | .step t => some t
  | .reply t _ => some t
  | .advance _ => none

def Label.Drives (t : Tid) : Label → Prop
  | .step u => u = t
  | .reply u _ => u = t
  | _ => False

theorem Label.Drives.thread {l : Label} {t : Tid} (h : l.Drives t) : l.thread? = some t := by
  cases l with
  | step u => exact congrArg some h
  | reply u r => exact congrArg some h
  | _ => cases h

namespace Machine

inductive Makes (m : Machine) : Label → List Event → Machine → Prop
  | advance (ns : Int) : Makes m (.advance ns) [] (m.advance ns)
  | call {t : Tid} {op : Op} : mayCall (m.frames t) = true →
    Makes m (.call t op) [⟨t, m.shared.fresh, .called op⟩] (m.push t op (m.frames t)).1
  | turn {l : Label} {t : Tid} {call : Nat} {p : Point} {rest : List Frame}
    {hs : List Happening} {s : Shared} {c : Course Point} :
    l.Drives t → m.frames t = ⟨call, p⟩ :: rest → p.Goes m.shared t call hs s c →
    (∀ p', c ≠ .gated p') →
    Makes m l (hs.map (Event.mk t call)) ⟨s, m.calls.set t (⟨call, c.next⟩ :: rest)⟩
  | gate {l : Label} {t : Tid} {call : Nat} {p p' : Point} {rest : List Frame} :
    l.Drives t → m.frames t = ⟨call, p⟩ :: rest → p.Goes m.shared t call [] m.shared (.gated p') →
    Makes m l [⟨t, m.shared.fresh, .called .sweep⟩]
      (m.push t .sweep (⟨call, p'⟩ :: rest)).1
  | leave {t : Tid} {call : Nat} {o : Outcome} {rest : List Frame} :
    m.frames t = ⟨call, .done o⟩ :: rest → (∀ f, o = .error f → mayCall rest = true) →
    Makes m (.step t) [⟨t, call, .returned o⟩] (m.setFrames t rest)
  | fail {t : Tid} {call : Nat} {f : Fault} {below : Frame} {others : List Frame} :
    m.frames t = ⟨call, .done (.error f)⟩ :: below :: others →
    mayCall (below :: others) = false →
    Makes m (.step t) [⟨t, call, .returned (.error f)⟩]
      (m.setFrames t (⟨below.call, .done (.error f)⟩ :: others))

end Machine

theorem Point.Goes.of_gated {s s' : Shared} {t : Tid} {call : Nat} {p p' : Point}
    {hs : List Happening} (h : p.Goes s t call hs s' (.gated p')) : hs = [] ∧ s' = s := by
  generalize hc : Course.gated p' = c at h
  cases h with
  | fetch h => cases h <;> cases hc; exact ⟨rfl, rfl⟩
  | erase h => cases h <;> cases hc; exact ⟨rfl, rfl⟩
  | clear h => cases h <;> cases hc
  | sweep h => cases h <;> cases hc
  | _ => cases hc

namespace Machine

variable {m m' : Machine} {l : Label} {es : List Event} {t : Tid} {call : Nat} {p : Point}
  {rest : List Frame}

theorem Makes.take {turn : Turn Point} (hs : List Happening) (hl : l.Drives t)
    (hf : m.frames t = ⟨call, p⟩ :: rest)
    (hp : p.Goes m.shared t call (hs ++ turn.happened) turn.shared turn.course) :
    Makes m l (hs.map (Event.mk t call) ++ (m.take t call rest turn).2)
      (m.take t call rest turn).1 := by
  obtain ⟨s, happened, course⟩ := turn
  cases course with
  | go p' => simpa [Machine.take, setFrames] using Makes.turn hl hf hp (by simp)
  | finish o => simpa [Machine.take, setFrames] using Makes.turn hl hf hp (by simp)
  | gated p' =>
    obtain ⟨hnil, rfl⟩ := hp.of_gated
    obtain ⟨rfl, rfl⟩ := List.append_eq_nil_iff.1 hnil
    exact .gate hl hf hp

theorem makes_of_finish {o : Outcome} (hf : m.frames t = ⟨call, .done o⟩ :: rest) :
    Makes m (.step t) (m.finish t call o rest).2 (m.finish t call o rest).1 := by
  cases o with
  | ok a => exact .leave hf (by simp)
  | error f =>
    cases rest with
    | nil => exact .leave hf fun _ _ => rfl
    | cons below others =>
      cases hc : mayCall (below :: others) with
      | true =>
        simp only [Machine.finish, hc, if_true]
        exact .leave hf fun _ _ => hc
      | false =>
        simp only [Machine.finish, hc]
        exact .fail hf hc

theorem makes_of_next? (h : m.next? l = some (m', es)) : Makes m l es m' := by
  cases l with
  | call t op =>
    obtain ⟨hc, h⟩ := Option.ite_none_right_eq_some.1 h
    cases h
    exact .call hc
  | step t =>
    simp only [next?, step?] at h
    split at h
    · cases h
    · cases h
      exact makes_of_finish ‹_›
    · obtain ⟨turn, hp, hm'⟩ := Option.map_eq_some_iff.1 h
      have := Makes.take (l := .step t) [] rfl ‹_› (Point.goes_of_step hp)
      rw [hm'] at this
      simpa using this
  | reply t r =>
    simp only [next?, reply?] at h
    split at h
    · cases h
    · obtain ⟨turn, hp, hm'⟩ := Option.map_eq_some_iff.1 h
      have := Makes.take (l := .reply t r) [.replied r] rfl ‹_› (Point.goes_of_reply hp)
      cases hm'
      simpa using this
  | advance ns =>
    cases h
    exact .advance ns

end Machine

namespace Run

variable {m m' m'' : Machine} {g h : List Move} {mv : Move}

theorem nil_iff : Run m [] m' ↔ m' = m := by
  constructor
  · intro hr
    generalize hnil : ([] : List Move) = g at hr
    cases hr with
    | start => rfl
    | next => simp at hnil
  · rintro rfl
    exact .start

theorem concat_iff : Run m (h ++ [mv]) m'' ↔
    ∃ m', Run m h m' ∧ m'.next? mv.label = some (m'', mv.events) := by
  constructor
  · intro hr
    generalize hlist : h ++ [mv] = g at hr
    cases hr with
    | start => simp at hlist
    | next hr hl =>
      obtain ⟨rfl, hmv⟩ := List.append_inj' hlist rfl
      cases hmv
      exact ⟨_, hr, hl⟩
  · rintro ⟨m', hr, hl⟩
    exact hr.next hl

theorem split (hr : Run m (g ++ h) m'') : ∃ m', Run m g m' ∧ Run m' h m'' := by
  induction h using List.reverseRecOn generalizing m'' with
  | nil => exact ⟨m'', by simpa using hr, .start⟩
  | append_singleton h mv ih =>
    rw [← List.append_assoc] at hr
    obtain ⟨m₁, hr, hl⟩ := concat_iff.1 hr
    obtain ⟨m', hg, hh⟩ := ih hr
    exact ⟨m', hg, hh.next hl⟩

theorem cons_iff : Run m (mv :: h) m'' ↔
    ∃ m', m.next? mv.label = some (m', mv.events) ∧ Run m' h m'' := by
  constructor
  · intro hr
    obtain ⟨m', h₁, hh⟩ := split (g := [mv]) hr
    obtain ⟨m₀, h₀, hl⟩ := concat_iff.1 (show Run m ([] ++ [mv]) m' from h₁)
    obtain rfl := nil_iff.1 h₀
    exact ⟨m', hl, hh⟩
  · rintro ⟨m', hl, hr⟩
    exact (Run.start.next hl).trans hr

theorem unique (hr : Run m h m') (hr' : Run m h m'') : m' = m'' := by
  induction hr generalizing m'' with
  | start => exact (nil_iff.1 hr').symm
  | next _ hl ih =>
    obtain ⟨m₁, hr₁, hl₁⟩ := concat_iff.1 hr'
    obtain rfl := ih hr₁
    cases hl.symm.trans hl₁
    rfl

end Run

/-- Every move of the run is one that the machine may make when it makes it. -/
def Throughout (P : Machine → Label → Prop) (start : Machine) (h : List Move) : Prop :=
  ∀ g mv g' m, h = g ++ mv :: g' → Run start g m → P m mv.label

namespace Throughout

variable {P : Machine → Label → Prop} {start m : Machine} {g h : List Move} {mv : Move}

theorem init (hp : Throughout P start (g ++ h)) : Throughout P start g :=
  fun g₁ mv g₂ m hg hr => hp g₁ mv (g₂ ++ h) m (by simp [hg]) hr

theorem after (hp : Throughout P start (g ++ h)) (hr : Run start g m) : Throughout P m h :=
  fun g₁ mv g₂ m₁ hh hr₁ => hp (g ++ g₁) mv g₂ m₁ (by simp [hh]) (hr.trans hr₁)

theorem at_move (hp : Throughout P start (g ++ mv :: h)) (hr : Run start g m) : P m mv.label :=
  hp g mv h m rfl hr

theorem nil : Throughout P m [] := by
  intro g mv g' m' hg
  simp at hg

theorem cons {m₁ : Machine} {l : Label} {es : List Event} (hl : m.next? l = some (m₁, es))
    (hp : P m l) (hh : Throughout P m₁ h) : Throughout P m (⟨l, es⟩ :: h) := by
  intro g mv g' m' hg hr
  cases g with
  | nil =>
    obtain rfl := Run.nil_iff.1 hr
    cases hg
    exact hp
  | cons mv₁ g =>
    obtain ⟨rfl, htail⟩ := List.cons.inj hg
    obtain ⟨m₂, hl₂, hr⟩ := Run.cons_iff.1 hr
    cases hl.symm.trans hl₂
    exact hh g mv g' m' htail hr

theorem append (hr : Run start g m) (hg : Throughout P start g) (hh : Throughout P m h) :
    Throughout P start (g ++ h) := by
  induction g generalizing start with
  | nil =>
    obtain rfl := Run.nil_iff.1 hr
    exact hh
  | cons mv g ih =>
    obtain ⟨m₁, hl, hr₁⟩ := Run.cons_iff.1 hr
    exact .cons hl (hg.at_move .start) (ih hr₁ (hg.after (g := [mv]) (Run.start.next hl)))

def check (P : Machine → Label → Prop) [∀ m l, Decidable (P m l)] (m : Machine) :
    List Label → Bool
  | [] => true
  | l :: ls =>
    match m.next? l with
    | none => check P m ls
    | some (m', _) => decide (P m l) && check P m' ls

theorem perform [∀ m l, Decidable (P m l)] {ls : List Label} (h : check P m ls = true) :
    Throughout P m (m.perform ls).1 := by
  induction ls generalizing m with
  | nil => exact .nil
  | cons l ls ih =>
    cases hl : m.next? l with
    | none =>
      simp only [check, hl] at h
      simp only [Machine.perform, hl]
      exact ih h
    | some x =>
      obtain ⟨m₁, es⟩ := x
      simp only [check, hl] at h
      simp only [Machine.perform, hl]
      obtain ⟨hfirst, h⟩ := Bool.and_eq_true_iff.1 h
      exact .cons hl (of_decide_eq_true hfirst) (ih h)

end Throughout

end Lapse
