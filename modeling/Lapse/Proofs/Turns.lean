import Lapse.Proofs.Patrols

namespace Lapse

theorem Patrol.create_task {id : String} {interval : Value} {p : Patrol}
    (h : Patrol.create id interval = .ok p) : p.task = none := by
  unfold create at h
  split at h
  · cases h
  · split at h
    · cases h
    · cases h
      rfl

namespace World

variable {w w' : World} {a : Actor} {s : Step} {below : List Activity}

@[simp] theorem loop_setActor : (w.setActor a).loop = w.loop := rfl

@[simp] theorem loop_notice (n : Notice) : (w.notice n).loop = w.loop := rfl

@[simp] theorem loop_absorb (m : Machine) (events : List Event) :
    (w.absorb m events).loop = w.loop := rfl

@[simp] theorem loop_deliver (r : Result) : (w.deliver a s r below).loop = w.loop := by
  unfold deliver
  split <;> rfl

@[simp] theorem loop_assign (t : Tid) (activities : List Activity) :
    (w.assign t activities).loop = w.loop := by
  simp only [assign]
  split <;> rfl

@[simp] theorem loop_spawn : (w.spawn s).1.loop = w.loop := by simp [spawn]

@[simp] theorem loop_spawnAll (steps : List Step) : (w.spawnAll steps).1.loop = w.loop := by
  induction steps generalizing w with
  | nil => rfl
  | cons s steps ih => simp [spawnAll, ih]

@[simp] theorem loop_openGate (gate : String) : (w.openGate gate).loop = w.loop := by
  unfold openGate
  generalize w.actors = actors
  induction actors generalizing w with
  | nil => rfl
  | cons a actors ih =>
    rw [List.foldl_cons, ih]
    split
    · split
      · simp
      · rfl
    · rfl

@[simp] theorem loop_defer : (w.defer a s below).loop = w.loop := rfl

@[simp] theorem loop_answer (ask : Ask) : (w.answer s ask).1.loop = w.loop := by
  unfold answer
  split
  · split <;> rfl
  · rfl
  · rfl

@[simp] theorem loop_attempt (name : String) (choices : List Behaviour) :
    (w.attempt name choices).1.loop = w.loop := rfl

theorem loop_resume? (h : w.resume? = some w') : w'.loop = w.loop := by
  unfold resume? at h
  split at h
  · cases h
  · simp only at h
    split at h
    · cases h
      rfl
    · split at h
      · cases h
        simp
      · cases h
        rfl

theorem loop_close {r : Reply} (h : w.close a r below = some w') : w'.loop = w.loop := by
  unfold close at h
  split at h
  · obtain ⟨x, -, rfl⟩ := Option.map_eq_some_iff.1 h
    rfl
  · cases h
    rfl

theorem loop_proceed {call : Nat} (h : w.proceed a s call below = some w') :
    w'.loop = w.loop := by
  unfold proceed at h
  split at h
  · rename_i ask _
    have hl := loop_answer (w := w) (s := s) ask
    generalize w.answer s ask = x at h hl
    cases h
    exact hl
  · obtain ⟨x, -, rfl⟩ := Option.map_eq_some_iff.1 h
    simp only
    split <;> simp

theorem startPatrol_grows (n : Nat) : w.loop.Grows (w.startPatrol n).loop := by
  unfold startPatrol
  split
  · exact Loop.Grows.refl.start ‹_›
  · exact .refl

theorem atOnce?_grows {r : Result} (h : w.atOnce? s = some (w', r)) : w.loop.Grows w'.loop := by
  unfold atOnce? at h
  split at h
  · cases h
    exact .refl
  · split at h
    · cases h
      exact .refl
    · cases h
      exact Loop.Grows.refl.add (Patrol.create_task ‹_›)
  · split at h
    · cases h
      exact .refl
    · cases h
      exact startPatrol_grows _
  all_goals
    cases h
    try exact .refl

theorem begin_grows (h : w.begin a s below = some w') : w.loop.Grows w'.loop := by
  unfold begin at h
  split at h
  · cases h
    exact .refl
  · cases h
    simp only [loop_defer, loop_assign]
    exact .refl
  · cases h
    rw [loop_defer, loop_openGate]
    exact .refl
  · split at h
    · cases h
      rw [loop_deliver]
      exact atOnce?_grows ‹_›
    · cases h
    · obtain ⟨x, -, rfl⟩ := Option.map_eq_some_iff.1 h
      exact .refl

theorem move?_grows (h : w.move? a = some w') : w.loop.Grows w'.loop := by
  unfold move? at h
  split at h
  · cases h
  · exact begin_grows h
  · rw [loop_proceed h]
    exact .refl
  · cases h
  · cases h
  · cases h
    exact .refl
  · cases h
    exact .refl
  · rw [loop_close h]
    exact .refl
  · cases h
    exact .refl

theorem settle_grows (fuel : Nat) : w.loop.Grows (w.settle fuel).loop := by
  induction fuel generalizing w with
  | zero => exact .refl
  | succ fuel ih =>
    unfold settle
    split
    · rename_i w₁ h
      refine Loop.Grows.trans ?_ ih
      cases hm : w.actors.findSome? w.move? with
      | some w₂ =>
        obtain ⟨a, -, ha⟩ := List.exists_of_findSome?_eq_some hm
        rw [hm] at h
        cases h
        exact move?_grows ha
      | none =>
        rw [hm] at h
        rw [loop_resume? h]
        exact .refl
    · exact .refl

theorem perform_grows (activities : List Activity) :
    w.loop.Grows (w.perform activities).1.loop := by
  have h := settle_grows (w := w.assign mainThread activities) patience
  rwa [loop_assign] at h

theorem round_grows : w.loop.Grows w.round.1.loop := by
  have h := perform_grows (w := w) [.begin .sweep]
  unfold round
  split
  · rename_i heq
    rwa [heq] at h
  · rename_i heq
    rw [heq] at h
    split
    · exact h
    · exact h

theorem take_grows (lines : List Line) : w.loop.Grows (w.take lines).1.loop := by
  induction lines generalizing w with
  | nil => exact .refl
  | cons line lines ih =>
    obtain ⟨s, insists⟩ := line
    have h := perform_grows (w := w) [.begin s]
    unfold take
    split
    rename_i w₁ r heq
    rw [heq] at h
    have h' := ih (w := w₁.notice (.nested s r))
    simp only
    split
    · exact h
    · exact h.trans h'

theorem rounds_grows (p : Patrol) (stop : StopAt) (sleeps : List (List Line)) :
    w.loop.Grows (w.rounds p stop sleeps).1.loop := by
  induction sleeps generalizing w with
  | nil => exact .refl
  | cons lines later ih =>
    unfold rounds
    split
    · exact .refl
    · have h := round_grows (w := w)
      split
      · rename_i heq
        rwa [heq] at h
      · rename_i w₁ heq
        rw [heq] at h
        have h' := take_grows (w := w₁.notice (.slept p.id p.interval)) lines
        split
        · rename_i heq'
          rw [heq'] at h'
          exact h.trans h'
        · rename_i heq'
          rw [heq'] at h'
          split
          · exact h.trans h'
          · exact (h.trans h').trans ih

theorem run_grows (p : Patrol) (stop : StopAt) (sleeps : List (List Line)) :
    w.loop.Grows (w.run p stop sleeps).1.loop := by
  have h : ∀ stopping sleeps,
      w.loop.Grows (World.rounds { w with stopping := stopping } p stop sleeps).1.loop :=
    fun stopping _ => rounds_grows (w := { w with stopping := stopping }) ..
  exact h _ _

end World

/-- What the turn of a task does: one that was called off ends, any other has its round, and ends or
goes to sleep. -/
inductive Loop.Takes (l : Loop) (m : Nat) : Loop → Prop
  | cancelled {t : Task} : l.tasks[m]? = some t → t.cancelled = true →
    Takes l m ((l.rise m).finish m .cancelled)
  | failed {t : Task} {l' : Loop} (f : Fault) : l.tasks[m]? = some t → t.cancelled = false →
    Grows (l.rise m) l' → Takes l m (l'.finish m (.failed f))
  | slept {t : Task} {l' : Loop} (id : String) : l.tasks[m]? = some t → t.cancelled = false →
    Grows (l.rise m) l' → Takes l m (l'.sleep m id)

theorem World.turn_takes {w : World} {m : Nat} {t : Task} {p : Patrol}
    (ht : w.loop.tasks[m]? = some t) (hp : w.loop.patrols[t.patrol]? = some p) :
    w.loop.Takes m (w.turn m).loop := by
  have h := round_grows (w := { w with loop := w.loop.rise m })
  simp only [turn, ht]
  cases hc : t.cancelled with
  | true => exact .cancelled ht hc
  | false =>
    simp only [Bool.false_eq_true, if_false]
    split
    · rename_i heq
      rw [heq] at h
      exact .failed _ ht hc h
    · rename_i heq
      rw [heq] at h
      obtain ⟨p', hp'⟩ := h.patrols (p := p) (by simpa using hp)
      rw [hp']
      exact .slept p'.id ht hc h

namespace Loop

variable {l l' : Loop} {j m : Nat} {t : Task}

namespace Takes

theorem sound (h : l.Takes m l') (hs : l.Sound (some m)) : l'.Sound none := by
  cases h with
  | cancelled _ _ => exact hs.rise.finish
  | failed f _ _ hg => exact (hg.sound hs.rise).finish
  | slept id _ _ hg => exact (hg.sound hs.rise).sleep

theorem other (h : l.Takes m l') (hj : j ≠ m) (ht : l.tasks[j]? = some t) :
    l'.tasks[j]? = some t := by
  have hrise : (l.rise m).tasks[j]? = some t := by rwa [tasks_rise]
  cases h with
  | cancelled _ _ => rwa [tasks_finish, tasks_setStage, if_neg hj]
  | failed f _ _ hg => rw [tasks_finish, tasks_setStage, if_neg hj, hg.tasks hrise]
  | @slept t l' id _ _ hg =>
    have hl' : (l'.sleep m id).tasks[j]? = l'.tasks[j]? := by
      change (l'.setStage m .asleep).tasks[j]? = _
      rw [tasks_setStage, if_neg hj]
    rw [hl', hg.tasks hrise]

theorem queue (h : l.Takes m l') (ha : l.awaited ≠ some m) :
    (∃ ms : List Nat, l'.queue = l.queue ++ ms.map .task) ∧ l'.awaited = l.awaited := by
  cases h with
  | cancelled _ _ => simp [finish, ha]
  | failed f _ _ hg =>
    obtain ⟨ms, hms⟩ := hg.queue
    simp [finish, hg.awaited, hms, ha]
  | slept id _ _ hg =>
    obtain ⟨ms, hms⟩ := hg.queue
    simp [sleep, hg.awaited, hms]

end Takes

end Loop

end Lapse
