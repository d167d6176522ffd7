import Lapse.Proofs.Moves

namespace Lapse

def Happening.passed? : Happening → Option Int
  | passed now => some now
  | _ => none

def Move.Passes (mv : Move) (now : Int) : Prop := ∃ e ∈ mv.events, e.what = .passed now

namespace Machine

def Sets (m : Machine) (l : Label) : Prop :=
  ∃ t c p rest, l.thread? = some t ∧ m.frames t = ⟨c, p⟩ :: rest ∧
    (p = .restart ∨ ∃ ns n, p = .setInterval ns ∧ ns.toInteger = .ok n)

/-- What a move resets the countdown to, if it does: the instant that was read, and the interval in
force. -/
def reset? (m : Machine) (mv : Move) : Option (Int × Int) :=
  match mv.events.findSome? (·.what.passed?) with
  | some now => some (now, m.shared.interval)
  | none =>
    match mv.label.thread?.map m.frames with
    | some (⟨_, .restart⟩ :: _) => some (m.shared.clock, m.shared.interval)
    | _ => none

def tick (x : Machine × Int × Int) (mv : Move) : Machine × Int × Int :=
  (((x.1.next? mv.label).map (·.1)).getD x.1, (x.1.reset? mv).getD x.2)

end Machine

/-- The instant from which a run counts at last, and how long. -/
def countdown (start : Machine) (h : List Move) : Int × Int :=
  (h.foldl Machine.tick (start, start.shared.clock, start.shared.interval)).2

theorem Run.foldl_tick {start m : Machine} {h : List Move} (hr : Run start h m) (x : Int × Int) :
    (h.foldl Machine.tick (start, x)).1 = m := by
  induction hr with
  | start => rfl
  | next _ hl ih => simp [Machine.tick, ih, hl]

theorem Run.countdown_concat {start m : Machine} {h : List Move} (hr : Run start h m) (mv : Move) :
    countdown start (h ++ [mv]) = (m.reset? mv).getD (countdown start h) := by
  simp [countdown, Machine.tick, hr.foldl_tick]

inductive Point.Paces (s : Shared) : Point → List Happening → Shared → Prop
  | passes {now : Int} {s' : Shared} : s.due ≤ now → s'.due = now + s.interval →
    s'.interval = s.interval → Paces s (.sweep (.recheck now)) [.passed now] s'
  | restarts {s' : Shared} : s'.due = s.clock + s.interval → s'.interval = s.interval →
    Paces s .restart [] s'
  | sets {ns : Value} {n : Int} {s' : Shared} : ns.toInteger = .ok n → s'.due = s.due →
    Paces s (.setInterval ns) [] s'
  | keeps {p : Point} {hs : List Happening} {s' : Shared} : p ≠ .restart →
    (∀ now, .passed now ∉ hs) → s'.due = s.due → s'.interval = s.interval → Paces s p hs s'

theorem Point.Goes.paces {s s' : Shared} {t : Tid} {call : Nat} {p : Point} {hs : List Happening}
    {c : Course Point} (h : p.Goes s t call hs s' c) : p.Paces s hs s' := by
  cases h with
  | fetch h => cases h <;> exact .keeps (by simp) (by simp) rfl rfl
  | erase h => cases h <;> exact .keeps (by simp) (by simp) rfl rfl
  | clear h => cases h <;> exact .keeps (by simp) (by simp) rfl rfl
  | sweep h =>
    cases h with
    | passed hd => exact .passes hd rfl rfl
    | _ => exact .keeps (by simp) (by simp) rfl rfl
  | set hn => exact .sets hn rfl
  | restarted => exact .restarts rfl rfl
  | _ => exact .keeps (by simp) (by simp) rfl rfl

theorem Point.Goes.ne_restart {s s' : Shared} {t : Tid} {call : Nat} {p p' : Point}
    {hs : List Happening} (h : p.Goes s t call hs s' (.gated p')) : p ≠ .restart := by
  generalize hc : Course.gated p' = c at h
  cases h with
  | restarted => cases hc
  | _ => simp

namespace Machine

variable {start m m' : Machine} {mv : Move} {g h w : List Move}

inductive Paces (m : Machine) (mv : Move) (m' : Machine) : Prop
  | resets {r i : Int} : m.reset? mv = some (r, i) → m.shared.interval = i →
    m'.shared.due = r + i → m'.shared.interval = i →
    (∀ now, mv.Passes now → m.shared.due ≤ now ∧ r = now) →
    ((∃ now, mv.Passes now) ∨ m.Sets mv.label) → Paces m mv m'
  | keeps : m.reset? mv = none → (∀ now, ¬mv.Passes now) → m'.shared.due = m.shared.due →
    (m'.shared.interval = m.shared.interval ∨ m.Sets mv.label) → Paces m mv m'

theorem reset?_of_frames {t : Tid} {c : Nat} {p : Point} {rest : List Frame}
    (ht : mv.label.thread? = some t) (hf : m.frames t = ⟨c, p⟩ :: rest) (hp : p ≠ .restart)
    (hes : ∀ now, ¬mv.Passes now) : m.reset? mv = none := by
  have hnone : mv.events.findSome? (·.what.passed?) = none := by
    rw [List.findSome?_eq_none_iff]
    intro e he
    cases hw : e.what with
    | passed now => exact absurd ⟨e, he, hw⟩ (hes now)
    | _ => rfl
  simp only [reset?, hnone, ht, Option.map_some, hf]
  split
  · rename_i heq
    cases heq
    exact absurd rfl hp
  · rfl

theorem paces_of_next? (hl : m.next? mv.label = some (m', mv.events)) : m.Paces mv m' := by
  obtain ⟨l, es⟩ := mv
  dsimp only at hl
  have calm : ∀ {t c p rest}, l.thread? = some t → m.frames t = ⟨c, p⟩ :: rest → p ≠ .restart →
      (∀ e ∈ es, ∀ now, e.what ≠ .passed now) → m'.shared.due = m.shared.due →
      (m'.shared.interval = m.shared.interval ∨ m.Sets l) → m.Paces ⟨l, es⟩ m' := by
    intro t c p rest ht hf hp hes hdue hinterval
    have hno : ∀ now, ¬Move.Passes ⟨l, es⟩ now := fun now ⟨e, he, hw⟩ => hes e he now hw
    exact .keeps (reset?_of_frames ht hf hp hno) hno hdue hinterval
  cases makes_of_next? hl with
  | advance ns => exact .keeps rfl (by simp [Move.Passes]) rfl (.inl rfl)
  | @call t op hc =>
    have hno : ∀ now, ¬Move.Passes ⟨.call t op, [⟨t, m.shared.fresh, .called op⟩]⟩ now := by
      simp [Move.Passes]
    refine .keeps ?_ hno rfl (.inl rfl)
    cases hf : m.frames t with
    | nil => simp [reset?, Label.thread?, hf, Happening.passed?]
    | cons f rest =>
      refine reset?_of_frames rfl hf ?_ hno
      intro hp
      simp [hf, mayCall, hp, Point.ask?] at hc
  | @turn _ t c p rest hs s course hd hf hp _ =>
    cases hp.paces with
    | @passes now _ hdue hnext hint =>
      refine .resets (r := now) (i := m.shared.interval) ?_ rfl hnext hint ?_ ?_
      · simp [reset?, Happening.passed?]
      · rintro _ ⟨e, he, hw⟩
        obtain rfl := List.mem_singleton.1 he
        cases hw
        exact ⟨hdue, rfl⟩
      · exact .inl ⟨now, _, List.mem_singleton_self _, rfl⟩
    | restarts hnext hint =>
      refine .resets (r := m.shared.clock) (i := m.shared.interval) ?_ rfl hnext hint ?_ ?_
      · simp [reset?, hd.thread, hf]
      · simp [Move.Passes]
      · exact .inr ⟨t, c, _, rest, hd.thread, hf, .inl rfl⟩
    | @sets ns n _ hn hdue =>
      exact calm hd.thread hf (by simp) (by simp) hdue
        (.inr ⟨t, c, _, rest, hd.thread, hf, .inr ⟨ns, n, rfl, hn⟩⟩)
    | keeps hne hno hdue hint =>
      refine calm hd.thread hf hne ?_ hdue (.inl hint)
      intro e he now hw
      obtain ⟨x, hx, rfl⟩ := List.mem_map.1 he
      exact hno now (hw ▸ hx)
  | gate hd hf hp =>
    exact calm hd.thread hf hp.ne_restart (by simp) rfl (.inl rfl)
  | leave hf _ => exact calm rfl hf (by simp) (by simp) rfl (.inl rfl)
  | fail hf _ => exact calm rfl hf (by simp) (by simp) rfl (.inl rfl)

end Machine

theorem Run.due_eq {policy : Policy} {clock interval : Int} {h : List Move} {m : Machine}
    (hr : Run (.start policy clock interval) h m) :
    m.shared.due = (countdown (.start policy clock interval) h).1 +
      (countdown (.start policy clock interval) h).2 := by
  induction hr with
  | start => rfl
  | @next h m m' l es hr hl ih =>
    rw [hr.countdown_concat]
    have hpaces : m.Paces ⟨l, es⟩ m' := Machine.paces_of_next? hl
    cases hpaces with
    | resets hreset _ hdue => simp [hreset, hdue]
    | keeps hreset _ hdue => simp [hreset, hdue, ih]

namespace Machine

variable {start m m' : Machine} {mv mv' : Move} {g h w : List Move} {r i y : Int}

theorem due_le_of_run (hw : Run m w m') (hs : Throughout (fun m l => ¬m.Sets l) m w)
    (hi : 0 ≤ m.shared.interval) :
    m.shared.due ≤ m'.shared.due ∧ m'.shared.interval = m.shared.interval := by
  induction hw with
  | start => exact ⟨Int.le_refl _, rfl⟩
  | @next w m₁ m₂ l es hr hl ih =>
    obtain ⟨hdue, hint⟩ := ih hs.init
    have hset : ¬m₁.Sets l := hs.at_move hr
    have hpaces : m₁.Paces ⟨l, es⟩ m₂ := paces_of_next? hl
    cases hpaces with
    | resets _ hri hnext hint' hpass hcause =>
      obtain ⟨now, hnow⟩ | hset' := hcause
      · obtain ⟨hle, rfl⟩ := hpass now hnow
        omega
      · exact absurd hset' hset
    | keeps _ _ hnext hint' =>
      obtain hint' | hset' := hint'
      · omega
      · exact absurd hset' hset

theorem due_eq_of_run (hw : Run m w m') (hs : Throughout (fun m l => ¬m.Sets l) m w)
    (hp : ∀ mv ∈ w, ∀ now, ¬mv.Passes now) : m'.shared.due = m.shared.due := by
  induction hw with
  | start => rfl
  | @next w m₁ m₂ l es hr hl ih =>
    have hold := ih hs.init fun mv hmv => hp mv (List.mem_append_left _ hmv)
    have hpaces : m₁.Paces ⟨l, es⟩ m₂ := paces_of_next? hl
    cases hpaces with
    | resets _ _ _ _ _ hcause =>
      obtain ⟨now, hnow⟩ | hset := hcause
      · exact absurd hnow (hp _ (List.mem_append_right _ List.mem_cons_self) now)
      · exact absurd hset (hs.at_move hr)
    | keeps _ _ hnext _ => exact hnext.trans hold

theorem due_le_of_passes (hl : m.next? mv.label = some (m', mv.events)) (hy : mv.Passes y) :
    m.shared.due ≤ y := by
  cases paces_of_next? hl with
  | resets _ _ _ _ hpass _ => exact (hpass y hy).1
  | keeps _ hno _ _ => exact absurd hy (hno y)

theorem spaced {m₁ m₂ m₃ : Machine} {x : Int} (hl : m.next? mv.label = some (m₁, mv.events))
    (hx : mv.Passes x) (hw : Run m₁ w m₂) (hs : Throughout (fun m l => ¬m.Sets l) m₁ w)
    (hp : ∀ mv ∈ w, ∀ now, ¬mv.Passes now) (hl' : m₂.next? mv'.label = some (m₃, mv'.events))
    (hy : mv'.Passes y) : x + m.shared.interval ≤ y := by
  have hle := due_le_of_passes hl' hy
  rw [due_eq_of_run hw hs hp] at hle
  cases paces_of_next? hl with
  | resets _ hi hdue _ hpass _ =>
    obtain ⟨-, rfl⟩ := hpass x hx
    omega
  | keeps _ hno _ _ => exact absurd hx (hno x)

theorem lasts {m₁ m₂ m₃ : Machine} (hl : m.next? mv.label = some (m₁, mv.events))
    (hreset : m.reset? mv = some (r, i)) (hi : 0 ≤ i) (hw : Run m₁ w m₂)
    (hs : Throughout (fun m l => ¬m.Sets l) m₁ w)
    (hl' : m₂.next? mv'.label = some (m₃, mv'.events)) (hy : mv'.Passes y) : r + i ≤ y := by
  have hle := due_le_of_passes hl' hy
  cases paces_of_next? hl with
  | resets hreset' _ hdue hint _ _ =>
    cases hreset.symm.trans hreset'
    have := (due_le_of_run hw hs (by omega)).1
    omega
  | keeps hnone _ _ _ => cases hreset.symm.trans hnone

end Machine

end Lapse
