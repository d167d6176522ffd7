import Lapse.Proofs.Turns

namespace Lapse

namespace Loop

structure Idle (l : Loop) : Prop where
  awaited : l.awaited = none
  uncalled : .caller ∉ l.queue

structure Calling (n m : Nat) (l : Loop) : Prop where
  sound : l.Sound none
  awaited : l.awaited = some m
  uncalled : .caller ∉ l.queue
  task : ∃ t, l.tasks[m]? = some t ∧ t.patrol = n ∧ t.cancelled = true ∧ t.isDue = true

/-- The task has ended, and the caller's turn comes behind these, which are none of the patrol's. -/
structure Called (n m : Nat) (q : List Turned) (l : Loop) : Prop where
  sound : l.Sound none
  awaited : l.awaited = none
  queue : ∃ q', l.queue = q ++ .caller :: q' ∧ .caller ∉ q'
  uncalled : .caller ∉ q
  task : ∃ t, l.tasks[m]? = some t ∧ t.isEnded = true
  strangers : ∀ j, .task j ∈ q → ∀ t, l.tasks[j]? = some t → t.patrol ≠ n

variable {l l' : Loop} {j m n : Nat} {t : Task} {q : List Turned}

theorem Grows.idle (h : l.Grows l') (hi : l.Idle) : l'.Idle where
  awaited := h.awaited.trans hi.awaited
  uncalled := by
    obtain ⟨ms, hms⟩ := h.queue
    rw [hms]
    simp [hi.uncalled]

theorem Takes.idle (h : l.Takes m l') (hi : l.Idle) : l'.Idle := by
  obtain ⟨⟨ms, hms⟩, ha⟩ := h.queue (by simp [hi.awaited])
  refine ⟨ha.trans hi.awaited, ?_⟩
  rw [hms]
  simp [hi.uncalled]

def Retains (l l' : Loop) : Prop := ∀ (i : Nat) (t : Task), l.tasks[i]? = some t →
  ∃ t', l'.tasks[i]? = some t' ∧ t'.patrol = t.patrol ∧ (t.isEnded = true → t'.isEnded = true)

theorem Retains.refl (h : l'.tasks = l.tasks) : l.Retains l' := by
  intro i t ht
  exact ⟨t, by rwa [h], rfl, id⟩

theorem Retains.trans {l'' : Loop} (h : l.Retains l') (h' : l'.Retains l'') : l.Retains l'' := by
  intro i t ht
  obtain ⟨t', ht', hp, he⟩ := h i t ht
  obtain ⟨t'', ht'', hp', he'⟩ := h' i t' ht'
  exact ⟨t'', ht'', hp'.trans hp, fun h => he' (he h)⟩

theorem Retains.set (t' : Task) (ht : l.tasks[m]? = some t)
    (htasks : ∀ i, l'.tasks[i]? = if i = m then some t' else l.tasks[i]?)
    (hp : t'.patrol = t.patrol) (he : t.isEnded = false) : l.Retains l' := by
  intro i x hx
  rw [htasks]
  by_cases hi : i = m
  · subst hi
    rw [ht] at hx
    cases hx
    exact ⟨t', by simp, hp, by simp [he]⟩
  · exact ⟨x, by rwa [if_neg hi], rfl, id⟩

theorem Grows.retains (h : l.Grows l') : l.Retains l' :=
  fun _ t ht => ⟨t, h.tasks ht, rfl, id⟩

theorem Takes.retains (h : l.Takes m l') (hs : l.Sound (some m)) : l.Retains l' := by
  obtain ⟨t, ht, hd⟩ := hs.turn rfl
  have he := Task.not_ended_of_isDue hd
  have hrise : (l.rise m).tasks[m]? = some t := by rwa [tasks_rise]
  have hfinish : ∀ {l₁ : Loop} {how : TaskEnd}, l₁.tasks[m]? = some t → l.Retains l₁ →
      l.Retains (l₁.finish m how) := by
    intro l₁ how ht₁ h₁
    refine h₁.trans (.set { t with stage := .ended how } ht₁ (fun i => ?_) rfl he)
    rw [tasks_finish]
    exact tasks_setStage_of ht₁ i
  cases h with
  | cancelled _ _ => exact hfinish hrise (.refl tasks_rise)
  | failed f _ _ hg =>
    exact hfinish (hg.tasks hrise) (Retains.trans (.refl tasks_rise) hg.retains)
  | slept id _ _ hg =>
    have ht' := hg.tasks hrise
    exact (Retains.trans (.refl tasks_rise) hg.retains).trans
      (.set { t with stage := .asleep } ht' (tasks_setStage_of ht') rfl he)

theorem Sound.task_of_queue (hs : l.Sound none) (h : .task j ∈ l.queue) :
    ∃ t, l.tasks[j]? = some t ∧ t.isDue = true :=
  (hs.queued.1 (mem_due.2 h)).2

theorem Calling.unique (h : l.Calling n m) (hj : .task j ∈ l.queue) (ht : l.tasks[j]? = some t)
    (hn : t.patrol = n) : j = m := by
  obtain ⟨t', ht', hn', -, hd'⟩ := h.task
  obtain ⟨t₁, ht₁, hd⟩ := h.sound.task_of_queue hj
  rw [ht] at ht₁
  cases ht₁
  exact h.sound.unfinished_unique (mem_unfinished.2 ⟨t, ht, hn, Task.not_ended_of_isDue hd⟩)
    (mem_unfinished.2 ⟨t', ht', hn', Task.not_ended_of_isDue hd'⟩)

theorem Calling.ends (h : l.Calling n m) (hq : l.queue = .task m :: q)
    (ht : ({ l with queue := q } : Loop).Takes m l') : l'.Called n m q := by
  have hnext := h.sound.next hq
  obtain ⟨t, htask, hn, hc, hd⟩ := h.task
  have huncalled : .caller ∉ q := fun hmem => h.uncalled (by simp [hq, hmem])
  have hsound := ht.sound hnext
  have hother := fun j (hj : j ≠ m) t => ht.other (t := t) hj
  cases ht with
  | cancelled _ _ =>
    refine ⟨hsound, ?_, ⟨[], ?_, by simp⟩, huncalled, ?_, ?_⟩
    · simp [finish, h.awaited]
    · simp [finish, h.awaited, enqueue]
    · refine ⟨{ t with stage := .ended .cancelled }, ?_, rfl⟩
      rw [tasks_finish, tasks_setStage, if_pos rfl, tasks_rise, htask, Option.map_some]
    · intro j hj x hx hxn
      have hqueue : .task j ∈ l.queue := by simp [hq, hj]
      obtain ⟨y, hy, -⟩ := h.sound.task_of_queue hqueue
      have hjm : j ≠ m := by
        rintro rfl
        exact (hnext.queued.1 (mem_due.2 hj)).1 rfl
      rw [hother j hjm y hy] at hx
      cases hx
      exact hjm (h.unique hqueue hy hxn)
  | failed f ht' hc' _ | slept id ht' hc' _ =>
    rw [htask] at ht'
    cases ht'
    simp [hc] at hc'

theorem Calling.waits (h : l.Calling n m) (hq : l.queue = .task j :: q) (hj : j ≠ m)
    (ht : ({ l with queue := q } : Loop).Takes j l') :
    l'.Calling n m ∧ ∃ ms : List Nat, l'.queue = q ++ ms.map .task := by
  obtain ⟨⟨ms, hms⟩, ha⟩ := ht.queue (by simpa [h.awaited] using Ne.symm hj)
  obtain ⟨t, htask, hrest⟩ := h.task
  refine ⟨⟨ht.sound (h.sound.next hq), ha.trans h.awaited, ?_, t, ht.other (Ne.symm hj) htask,
    hrest⟩, ms, hms⟩
  rw [hms]
  have huncalled : .caller ∉ q := fun hmem => h.uncalled (by simp [hq, hmem])
  simp [huncalled]

theorem Called.nears (h : l.Called n m (.task j :: q))
    (ht : ({ l with queue := l.queue.tail } : Loop).Takes j l') : l'.Called n m q := by
  obtain ⟨q', hq', hcaller⟩ := h.queue
  have hq : l.queue = .task j :: (q ++ .caller :: q') := hq'
  rw [hq, List.tail_cons] at ht
  have hnext := h.sound.next hq
  obtain ⟨⟨ms, hms⟩, ha⟩ := ht.queue (by simp [h.awaited])
  obtain ⟨t, htask, hended⟩ := h.task
  have hjm : m ≠ j := by
    rintro rfl
    obtain ⟨t', ht', hd⟩ := hnext.turn rfl
    rw [show l.tasks[m]? = some t' from ht'] at htask
    cases htask
    simp [Task.not_ended_of_isDue hd] at hended
  refine ⟨ht.sound hnext, ha.trans h.awaited, ⟨q' ++ ms.map .task, ?_, by simp [hcaller]⟩, ?_,
    ⟨t, ht.other hjm htask, hended⟩, ?_⟩
  · simp [hms]
  · exact fun hmem => h.uncalled (List.mem_cons_of_mem _ hmem)
  · intro i hi x hx
    have hqueue : .task i ∈ l.queue := by simp [hq, hi]
    obtain ⟨y, hy, -⟩ := h.sound.task_of_queue hqueue
    have hij : i ≠ j := by
      rintro rfl
      exact (hnext.queued.1 (mem_due.2 (List.mem_append_left _ hi))).1 rfl
    rw [ht.other hij hy] at hx
    cases hx
    exact h.strangers i (List.mem_cons_of_mem _ hi) _ hy

theorem Sound.cancel (hs : l.Sound none) (ht : l.tasks[m]? = some t) (he : t.isEnded = false) :
    (l.cancel m).Sound none ∧ (l.cancel m).awaited = l.awaited ∧
      (.caller ∉ l.queue → .caller ∉ (l.cancel m).queue) ∧ l.Retains (l.cancel m) ∧
      ∃ t', (l.cancel m).tasks[m]? = some t' ∧ t'.patrol = t.patrol ∧ t'.cancelled = true ∧
        t'.isDue = true := by
  obtain ⟨patrol, stage, cancelled⟩ := t
  have hcalled : ∀ j, (l.callOff m).tasks[j]? =
      if j = m then some ⟨patrol, stage, true⟩ else l.tasks[j]? := by
    intro j
    rw [tasks_callOff, ht, Option.map_some]
  have hmark : Task.isDue ⟨patrol, stage, true⟩ = Task.isDue ⟨patrol, stage, cancelled⟩ := rfl
  have hsame : (l.callOff m).Sound none := by
    refine hs.restage ht hcalled patrols_callOff rfl (fun h => h) (fun {j} => ?_) ?_
      (by simp)
    · rw [due_callOff, hs.queued, hcalled]
      by_cases hj : j = m
      · simp [hj, ht, hmark]
      · simp [hj]
    · rw [due_callOff]
      exact hs.once
  cases stage with
  | ended how => cases he
  | fresh | woken =>
    simp only [Loop.cancel, ht]
    exact ⟨hsame, by simp, by simp, .set _ ht hcalled rfl he, _,
      (hcalled m).trans (if_pos rfl), rfl, rfl, rfl⟩
  | asleep =>
    simp only [Loop.cancel, ht]
    have htasks : ∀ j, (((l.callOff m).setStage m .woken).enqueue (.task m)).tasks[j]? =
        if j = m then some ⟨patrol, .woken, true⟩ else l.tasks[j]? := by
      intro j
      change ((l.callOff m).setStage m .woken).tasks[j]? = _
      rw [tasks_setStage, hcalled, if_pos rfl, Option.map_some]
      by_cases hj : j = m
      · simp [hj]
      · simp [hj, hcalled]
    refine ⟨hs.rouse _ ht htasks ?_ ?_ rfl rfl rfl rfl, ?_, ?_, .set _ ht htasks rfl rfl, _,
      (htasks m).trans (if_pos rfl), rfl, rfl, rfl⟩
    · simp [enqueue]
    · rw [due_enqueue_task, due_setStage, due_callOff]
    · simp [enqueue]
    · simp [enqueue]

theorem cancel_of_ended (ht : l.tasks[m]? = some t) (he : t.isEnded = true) : l.cancel m = l := by
  obtain ⟨patrol, stage, cancelled⟩ := t
  cases stage with
  | ended how => simp [cancel, ht]
  | _ => cases he

theorem Sound.wake {id : String} (hs : l.Sound none) (h : l.wake? id = some l') :
    l'.Sound none := by
  obtain ⟨m, hm, rfl⟩ := Option.map_eq_some_iff.1 h
  obtain ⟨-, hasleep⟩ := Option.filter_eq_some_iff.1 hm
  obtain ⟨⟨patrol, stage, cancelled⟩, ht, hstage⟩ := (Option.any_eq_true _ _).1 hasleep
  cases stage with
  | asleep =>
    refine hs.rouse ⟨patrol, .woken, cancelled⟩ ht (tasks_setStage_of ht) ?_ ?_ rfl rfl rfl rfl
    · simp [enqueue]
    · rw [due_enqueue_task, due_setStage]
  | _ => cases hstage

theorem Idle.wake {id : String} (hi : l.Idle) (h : l.wake? id = some l') : l'.Idle := by
  obtain ⟨m, -, rfl⟩ := Option.map_eq_some_iff.1 h
  exact ⟨by simpa [enqueue] using hi.awaited, by simpa [enqueue] using hi.uncalled⟩

theorem Sound.forget (hs : l.Sound none) (hn : l.isRunning n = false) :
    (l.know n none).Sound none where
  knows {m t} ht he := by
    rw [tasks_know] at ht
    obtain ⟨p, hp, hm⟩ := hs.knows ht he
    have hne : t.patrol ≠ n := by
      rintro rfl
      have := hs.isRunning_iff.2 ⟨m, mem_unfinished.2 ⟨t, ht, rfl, he⟩⟩
      simp [hn] at this
    exact ⟨p, by rwa [patrols_know, if_neg hne], hm⟩
  owns {j m p} hp hm := by
    rw [patrols_know] at hp
    split at hp
    · obtain ⟨p', -, rfl⟩ := Option.map_eq_some_iff.1 hp
      cases hm
    · rw [tasks_know]
      exact hs.owns hp hm
  queued {j} := by rw [due_know, tasks_know, hs.queued]
  once := by
    rw [due_know]
    exact hs.once
  turn := by simp

end Loop

end Lapse
