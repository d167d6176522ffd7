import Lapse.Proofs.Stopping

/-!
Coherence of patrols. Between the acts of a session each patrol has at most one task that has not
ended, and says that it is running exactly then, as long as no stop was overtaken: a stop is, when a
callback has started the patrol again before the stop comes back to forget of its task.
-/

namespace Lapse

namespace World

def Sweeps (w : World) (m n : Nat) : Prop :=
  ∃ t, w.loop.tasks[m]? = some t ∧ t.patrol = n ∧ t.cancelled = false

def taken : Nat → World → List (World × Nat)
  | 0, _ => []
  | k + 1, w =>
    match w.loop.queue with
    | .task m :: queue =>
      let w : World := { w with loop := { w.loop with queue := queue } }
      (w, m) :: taken k (w.turn m)
    | _ => []

def Still (n : Nat) (turns : List (World × Nat)) : Prop := ∀ x ∈ turns, ¬ x.1.Sweeps x.2 n

def awaiting (w : World) (m : Nat) : World := { w with loop := { w.loop with awaited := some m } }

def awaitTurns (w : World) (m : Nat) : List (World × Nat) :=
  let w := w.awaiting m
  let k := w.loop.queue.length
  w.taken k ++ (w.turns k).taken (w.turns k).loop.queue.length

def callOff (w : World) (m : Nat) : World := { w with loop := w.loop.cancel m }

def resumed (w : World) (n m : Nat) : World :=
  if w.loop.isRunning n then (w.callOff m).await m else w.callOff m

def stopTurns (w : World) (n m : Nat) : List (World × Nat) :=
  if w.loop.isRunning n then (w.callOff m).awaitTurns m else []

/-- The act is a stop, and its patrol is running when the stop comes back. -/
def overtaken (w : World) : Act → Bool
  | .stopPatrol id =>
    match w.loop.number? id with
    | none => false
    | some n =>
      match w.loop.patrols[n]?.bind (·.task) with
      | none => false
      | some m => (w.resumed n m).loop.isRunning n
  | _ => false

variable {w w' : World} {j k m n : Nat} {q : List Turned}

theorem Still.append {xs ys : List (World × Nat)} (hx : Still n xs) (hy : Still n ys) :
    Still n (xs ++ ys) := by
  intro x h
  obtain h | h := List.mem_append.1 h
  · exact hx x h
  · exact hy x h

theorem Still.cons {xs : List (World × Nat)} (hx : ¬ w.Sweeps m n) (hy : Still n xs) :
    Still n ((w, m) :: xs) :=
  List.forall_mem_cons.2 ⟨hx, hy⟩

theorem Still.nil : Still n [] := by simp [Still]

def shifted (w : World) : World := { w with loop := { w.loop with queue := w.loop.queue.tail } }

theorem turns_task (hq : w.loop.queue = .task m :: q) :
    w.turns (k + 1) = (w.shifted.turn m).turns k ∧
      w.taken (k + 1) = (w.shifted, m) :: (w.shifted.turn m).taken k := by
  simp [turns, taken, shifted, hq]

theorem turns_caller (hq : w.loop.queue = .caller :: q) :
    w.turns (k + 1) = w.shifted ∧ w.taken (k + 1) = [] := by
  simp [turns, taken, shifted, hq]

theorem shifted_takes (hs : w.loop.Sound none) (hq : w.loop.queue = .task m :: q) :
    ({ w.loop with queue := q } : Loop).Takes m (w.shifted.turn m).loop := by
  have h : w.shifted.loop.Sound (some m) := by
    simpa [shifted, hq] using hs.next hq
  obtain ⟨t, ht, hd⟩ := h.turn rfl
  obtain ⟨p, hp, -⟩ := h.knows ht (Task.not_ended_of_isDue hd)
  simpa [shifted, hq] using turn_takes ht hp

theorem turns_sound (hs : w.loop.Sound none) :
    (w.turns k).loop.Sound none ∧ w.loop.Retains (w.turns k).loop := by
  induction k generalizing w with
  | zero => exact ⟨hs, .refl rfl⟩
  | succ k ih =>
    match hq : w.loop.queue with
    | [] =>
      simp only [turns, hq]
      exact ⟨hs, .refl rfl⟩
    | .caller :: q =>
      rw [(turns_caller hq).1]
      exact ⟨by simpa [shifted, hq] using hs.resume hq, .refl rfl⟩
    | .task m :: q =>
      rw [(turns_task hq).1]
      have ht := shifted_takes hs hq
      obtain ⟨hs', hr⟩ := ih (ht.sound (hs.next hq))
      exact ⟨hs', Loop.Retains.trans (ht.retains (hs.next hq)) hr⟩

theorem turns_idle (hs : w.loop.Sound none) (hi : w.loop.Idle) : (w.turns k).loop.Idle := by
  induction k generalizing w with
  | zero => exact hi
  | succ k ih =>
    match hq : w.loop.queue with
    | [] =>
      simp only [turns, hq]
      exact hi
    | .caller :: q => exact absurd (by simp [hq]) hi.uncalled
    | .task m :: q =>
      rw [(turns_task hq).1]
      have ht := shifted_takes hs hq
      have huncalled : .caller ∉ q := fun h => hi.uncalled (by simp [hq, h])
      exact ih (ht.sound (hs.next hq)) (ht.idle ⟨hi.awaited, huncalled⟩)

theorem called_turns (h : w.loop.Called n m q) (hk : k ≤ q.length) :
    (∃ q', (w.turns k).loop.Called n m q') ∧ Still n (w.taken k) := by
  induction k generalizing w q with
  | zero => exact ⟨⟨q, h⟩, .nil⟩
  | succ k ih =>
    match q with
    | [] => simp at hk
    | .caller :: q => exact absurd List.mem_cons_self h.uncalled
    | .task j :: q =>
      obtain ⟨q', hqueue, -⟩ := h.queue
      have hq : w.loop.queue = .task j :: (q ++ .caller :: q') := hqueue
      have ht := shifted_takes h.sound hq
      have hnears : (w.shifted.turn j).loop.Called n m q := h.nears (by simpa [hq] using ht)
      obtain ⟨hcalled, hstill⟩ := ih hnears (by simpa using hk)
      rw [(turns_task hq).1, (turns_task hq).2]
      refine ⟨hcalled, .cons ?_ hstill⟩
      rintro ⟨t, ht, hn, -⟩
      exact h.strangers j List.mem_cons_self t ht hn

theorem calling_turns {q' : List Turned} (h : w.loop.Calling n m)
    (hq : w.loop.queue = q ++ .task m :: q') (hk : q.length < k) (hk' : k ≤ w.loop.queue.length) :
    (∃ q', (w.turns k).loop.Called n m q') ∧ Still n (w.taken k) := by
  induction k generalizing w q q' with
  | zero => simp at hk
  | succ k ih =>
    match q with
    | [] =>
      have hq : w.loop.queue = .task m :: q' := hq
      rw [(turns_task hq).1, (turns_task hq).2]
      have hends := h.ends hq (shifted_takes h.sound hq)
      obtain ⟨hcalled, hstill⟩ := called_turns hends (k := k) (by simpa [hq] using hk')
      refine ⟨hcalled, .cons ?_ hstill⟩
      obtain ⟨t, htask, -, hc, -⟩ := h.task
      rintro ⟨t', ht', -, hc'⟩
      rw [show w.shifted.loop.tasks[m]? = some t from htask] at ht'
      cases ht'
      simp [hc] at hc'
    | .caller :: q => exact absurd (by simp [hq]) h.uncalled
    | .task j :: q =>
      have hq : w.loop.queue = .task j :: (q ++ .task m :: q') := hq
      have hjm : j ≠ m := by
        rintro rfl
        exact ((h.sound.next hq).queued.1 (Loop.mem_due.2 (by simp))).1 rfl
      obtain ⟨hcalling, ms, hms⟩ := h.waits hq hjm (shifted_takes h.sound hq)
      have hlen : k ≤ (w.shifted.turn j).loop.queue.length := by
        rw [hq] at hk'
        simp only [List.length_cons] at hk'
        rw [hms, List.length_append]
        omega
      have hqueue : (w.shifted.turn j).loop.queue = q ++ .task m :: (q' ++ ms.map .task) := by
        simp [hms]
      obtain ⟨hcalled, hstill⟩ := ih hcalling hqueue (by simpa using hk) hlen
      rw [(turns_task hq).1, (turns_task hq).2]
      refine ⟨hcalled, .cons ?_ hstill⟩
      rintro ⟨t, ht, hn, -⟩
      exact hjm (h.unique (by simp [hq]) ht hn)

theorem called_resumes (h : w.loop.Called n m q) (hk : q.length < k) :
    (w.turns k).loop.Idle ∧ (∃ t, (w.turns k).loop.tasks[m]? = some t ∧ t.isEnded = true) ∧
      Still n (w.taken k) := by
  induction k generalizing w q with
  | zero => simp at hk
  | succ k ih =>
    obtain ⟨q', hqueue, hcaller⟩ := h.queue
    match q with
    | [] =>
      have hq : w.loop.queue = .caller :: q' := hqueue
      rw [(turns_caller hq).1, (turns_caller hq).2]
      refine ⟨⟨h.awaited, ?_⟩, h.task, .nil⟩
      simpa [shifted, hq] using hcaller
    | .caller :: q => exact absurd List.mem_cons_self h.uncalled
    | .task j :: q =>
      have hq : w.loop.queue = .task j :: (q ++ .caller :: q') := hqueue
      have ht := shifted_takes h.sound hq
      have hnears : (w.shifted.turn j).loop.Called n m q := h.nears (by simpa [hq] using ht)
      obtain ⟨hi, hended, hstill⟩ := ih hnears (by simpa using hk)
      rw [(turns_task hq).1, (turns_task hq).2]
      refine ⟨hi, hended, .cons ?_ hstill⟩
      rintro ⟨t, ht, hn, -⟩
      exact h.strangers j List.mem_cons_self t ht hn

/-- What a stop of a patrol that knows of this task comes back to. -/
structure Resumes (w : World) (n m : Nat) : Prop where
  sound : (w.resumed n m).loop.Sound none
  idle : (w.resumed n m).loop.Idle
  retains : w.loop.Retains (w.resumed n m).loop
  ended : ∃ t, (w.resumed n m).loop.tasks[m]? = some t ∧ t.isEnded = true
  still : Still n (w.stopTurns n m)

theorem await_ends {t : Task} (hs : w.loop.Sound none) (hi : w.loop.Idle)
    (ht : w.loop.tasks[m]? = some t) (hn : t.patrol = n) (hc : t.cancelled = true)
    (hd : t.isDue = true) :
    (w.await m).loop.Idle ∧ (∃ t, (w.await m).loop.tasks[m]? = some t ∧ t.isEnded = true) ∧
      Still n (w.awaitTurns m) := by
  have hcalling : (w.awaiting m).loop.Calling n m :=
    ⟨hs.congr rfl rfl rfl, rfl, hi.uncalled, t, ht, hn, hc, hd⟩
  have hmem : .task m ∈ (w.awaiting m).loop.queue :=
    Loop.mem_due.1 (hs.queued.2 ⟨by simp, t, ht, hd⟩)
  obtain ⟨q, q', hq⟩ := List.append_of_mem hmem
  obtain ⟨⟨q₁, hcalled⟩, hstill⟩ := calling_turns hcalling hq
    (k := (w.awaiting m).loop.queue.length) (by simp [hq]) (Nat.le_refl _)
  obtain ⟨q₂, hqueue, -⟩ := hcalled.queue
  obtain ⟨hi', hended, hstill'⟩ := called_resumes hcalled
    (k := ((w.awaiting m).turns (w.awaiting m).loop.queue.length).loop.queue.length)
    (by simp [hqueue])
  exact ⟨hi', hended, hstill.append hstill'⟩

theorem await_sound (hs : w.loop.Sound none) :
    (w.await m).loop.Sound none ∧ w.loop.Retains (w.await m).loop := by
  have hawaiting : (w.awaiting m).loop.Sound none := hs.congr rfl rfl rfl
  obtain ⟨hs₁, hr₁⟩ := turns_sound (k := (w.awaiting m).loop.queue.length) hawaiting
  obtain ⟨hs₂, hr₂⟩ := turns_sound hs₁
    (k := ((w.awaiting m).turns (w.awaiting m).loop.queue.length).loop.queue.length)
  exact ⟨hs₂, (Loop.Retains.trans (.refl rfl) hr₁).trans hr₂⟩

theorem resumes_of_ended {t : Task} (hs : w.loop.Sound none) (hi : w.loop.Idle)
    (ht : w.loop.tasks[m]? = some t) (he : t.isEnded = true)
    (hr : w.loop.isRunning n = false) : w.Resumes n m := by
  have hloop : (w.resumed n m).loop = w.loop := by
    simp [resumed, hr, callOff, Loop.cancel_of_ended ht he]
  constructor
  case sound => rwa [hloop]
  case idle => rwa [hloop]
  case retains => exact .refl (by rw [hloop])
  case ended => exact ⟨t, by rwa [hloop], he⟩
  case still =>
    rw [stopTurns, hr]
    exact .nil

theorem resumes_of_unended {t : Task} (hs : w.loop.Sound none) (hi : w.loop.Idle)
    (ht : w.loop.tasks[m]? = some t) (hn : t.patrol = n) (he : t.isEnded = false)
    (hr : w.loop.isRunning n = true) : w.Resumes n m := by
  obtain ⟨hs', ha, hu, hret, t', ht', hp', hc, hd⟩ := hs.cancel ht he
  have hidle : (w.callOff m).loop.Idle := ⟨ha.trans hi.awaited, hu hi.uncalled⟩
  obtain ⟨hi', hended, hstill⟩ := await_ends hs' hidle ht' (hp'.trans hn) hc hd
  obtain ⟨hs'', hret'⟩ := await_sound (w := w.callOff m) (m := m) hs'
  have hresumed : w.resumed n m = (w.callOff m).await m := by simp [resumed, hr]
  constructor
  case sound => rwa [hresumed]
  case idle => rwa [hresumed]
  case retains =>
    rw [hresumed]
    exact hret.trans hret'
  case ended => rwa [hresumed]
  case still => rwa [stopTurns, hr, if_pos rfl]

theorem resumes (hs : w.loop.Sound none) (hi : w.loop.Idle)
    (hm : w.loop.patrols[n]?.bind (·.task) = some m) : w.Resumes n m := by
  obtain ⟨p, hp, hpm⟩ := Option.bind_eq_some_iff.1 hm
  obtain ⟨t, ht, hn⟩ := hs.owns hp hpm
  have hr : w.loop.isRunning n = !t.isEnded := by simp [Loop.isRunning, hm, ht]
  cases he : t.isEnded with
  | true => exact resumes_of_ended hs hi ht he (by simp [hr, he])
  | false => exact resumes_of_unended hs hi ht hn he (by simp [hr, he])

theorem Resumes.started (h : w.Resumes n m) (hs : w.loop.Sound none)
    (hm : w.loop.patrols[n]?.bind (·.task) = some m)
    (hr : (w.resumed n m).loop.isRunning n = true) :
    ∃ k, w.loop.tasks.length ≤ k ∧ (w.resumed n m).loop.unfinished n = [k] := by
  obtain ⟨k, hk⟩ := h.sound.isRunning_iff.1 hr
  refine ⟨k, ?_, ?_⟩
  · by_contra hlt
    obtain ⟨t, ht⟩ : ∃ t, w.loop.tasks[k]? = some t := ⟨_, List.getElem?_eq_getElem (by omega)⟩
    obtain ⟨t', ht', hp, hended⟩ := h.retains k t ht
    obtain ⟨t₁, ht₁, hn, he⟩ := Loop.mem_unfinished.1 hk
    rw [ht'] at ht₁
    cases ht₁
    have he' : t.isEnded = false := by
      cases hte : t.isEnded with
      | false => rfl
      | true => simp [hended hte] at he
    -- of the tasks that there were, only the one that has ended since had not ended
    obtain ⟨p, hpat, hpk⟩ := hs.knows ht he'
    rw [← hp, hn] at hpat
    obtain rfl : k = m := by simpa [hpat, hpk] using hm
    obtain ⟨t₂, ht₂, he₂⟩ := h.ended
    rw [ht'] at ht₂
    cases ht₂
    simp [he₂] at he
  · have hle := h.sound.coherent.alone n
    match hu : (w.resumed n m).loop.unfinished n with
    | [] => simp [hu] at hk
    | [k'] =>
      rw [hu, List.mem_singleton] at hk
      rw [hk]
    | _ :: _ :: _ => simp [hu] at hle

theorem loop_stopPatrol (hm : w.loop.patrols[n]?.bind (·.task) = some m) :
    (w.stopPatrol n).1.loop = (w.resumed n m).loop.know n none := by
  simp only [stopPatrol, hm, resumed, callOff]
  split
  · rfl
  · rfl

theorem loop_stopPatrol_of_none (hm : w.loop.patrols[n]?.bind (·.task) = none) :
    (w.stopPatrol n).1.loop = w.loop := by
  simp [stopPatrol, hm]

theorem act_sound (hs : w.loop.Sound none) (hi : w.loop.Idle) (a : Act)
    (ho : w.overtaken a = false) : (w.act a).1.loop.Sound none ∧ (w.act a).1.loop.Idle := by
  have grown : ∀ {l : Loop}, w.loop.Grows l → l.Sound none ∧ l.Idle := fun h =>
    ⟨h.sound hs, h.idle hi⟩
  cases a with
  | step s => exact grown (perform_grows _)
  | stopPatrol id =>
    simp only [act]
    cases hn : w.loop.number? id with
    | none => exact ⟨hs, hi⟩
    | some n =>
      cases hm : w.loop.patrols[n]?.bind (·.task) with
      | none =>
        simp only [loop_stopPatrol_of_none hm]
        exact ⟨hs, hi⟩
      | some m =>
        have h := resumes hs hi hm
        simp only [overtaken, hn, hm] at ho
        simp only [loop_stopPatrol hm]
        exact ⟨h.sound.forget ho, by simpa using h.idle.awaited, by simpa using h.idle.uncalled⟩
  | yield => exact ⟨(turns_sound hs).1, turns_idle hs hi⟩
  | tick id =>
    simp only [act]
    cases hl : w.loop.wake? id with
    | none => exact ⟨hs, hi⟩
    | some l =>
      have hs' : ({ w with loop := l } : World).loop.Sound none := hs.wake hl
      exact ⟨(turns_sound hs').1, turns_idle hs' (hi.wake hl)⟩
  | run id stop sleeps =>
    simp only [act]
    split
    · exact ⟨hs, hi⟩
    · exact grown (run_grows ..)
  | race steps =>
    have h := settle_grows (w := (w.spawnAll steps).1) patience
    rw [loop_spawnAll] at h
    exact grown h

def quieted (w : World) : World := { w with notices := [] }

def after (w : World) (acts : List Act) : World := acts.foldl (fun w a => (w.play a).1) w

def undisturbed (w : World) : List Act → Bool
  | [] => true
  | a :: acts => !w.quieted.overtaken a && (w.play a).1.undisturbed acts

theorem after_sound {acts : List Act} (hs : w.loop.Sound none) (hi : w.loop.Idle)
    (hu : w.undisturbed acts = true) :
    (w.after acts).loop.Sound none ∧ (w.after acts).loop.Idle := by
  induction acts generalizing w with
  | nil => exact ⟨hs, hi⟩
  | cons a acts ih =>
    simp only [undisturbed, Bool.and_eq_true, Bool.not_eq_true'] at hu
    obtain ⟨hs', hi'⟩ := act_sound (w := w.quieted) hs hi a hu.1
    exact ih hs' hi' hu.2

structure Coherence (w : World) : Prop where
  coherent : w.loop.Coherent
  still : ∀ {n m : Nat}, w.loop.patrols[n]?.bind (·.task) = some m → Still n (w.stopTurns n m)
  stopped : ∀ {id : String} {n : Nat}, w.loop.number? id = some n →
    w.overtaken (.stopPatrol id) = false → (w.stopPatrol n).1.loop.unfinished n = []
  /-- A stop that is overtaken forgets of the one task that was made meanwhile. -/
  forgotten : ∀ {id : String} {n : Nat}, w.loop.number? id = some n →
    w.overtaken (.stopPatrol id) = true →
    (w.stopPatrol n).1.loop.isRunning n = false ∧
      ∃ k, w.loop.tasks.length ≤ k ∧ (w.stopPatrol n).1.loop.unfinished n = [k]

theorem unfinished_know (l : Loop) (task : Option Nat) (j : Nat) :
    (l.know n task).unfinished j = l.unfinished j := by
  simp [Loop.unfinished]

theorem unfinished_eq_nil {l : Loop} (hs : l.Sound none) (hr : l.isRunning n = false) :
    l.unfinished n = [] := by
  by_contra h
  simp [(hs.coherent.told n).2 h] at hr

theorem Coherence.of_sound (hs : w.loop.Sound none) (hi : w.loop.Idle) : w.Coherence where
  coherent := hs.coherent
  still hm := (resumes hs hi hm).still
  stopped {id n} hn ho := by
    cases hm : w.loop.patrols[n]?.bind (·.task) with
    | none =>
      rw [loop_stopPatrol_of_none hm]
      exact unfinished_eq_nil hs (by simp [Loop.isRunning, hm])
    | some m =>
      simp only [overtaken, hn, hm] at ho
      rw [loop_stopPatrol hm, unfinished_know]
      exact unfinished_eq_nil (resumes hs hi hm).sound ho
  forgotten {id n} hn ho := by
    cases hm : w.loop.patrols[n]?.bind (·.task) with
    | none => simp [overtaken, hn, hm] at ho
    | some m =>
      simp only [overtaken, hn, hm] at ho
      rw [loop_stopPatrol hm, unfinished_know]
      refine ⟨?_, (resumes hs hi hm).started hs hm ho⟩
      cases hp : (w.resumed n m).loop.patrols[n]? with
      | none => simp [Loop.isRunning, Loop.patrols_know, hp]
      | some p => simp [Loop.isRunning, Loop.patrols_know, hp]

end World

/-- Whatever a session does with its patrols, and its callbacks with them: between acts each patrol
has at most one task that has not ended, and is running exactly then, as long as no stop was
overtaken. -/
theorem Session.coherence {s : Session} {w : World} (h : s.start = .ok w) (acts : List Act)
    (hu : w.undisturbed acts = true) : (w.after acts).quieted.Coherence := by
  have hloop : w.loop = .empty := by
    unfold start at h
    split at h
    · cases h
    · cases h
      rfl
  have hs : w.loop.Sound none := hloop ▸ .empty
  have hi : w.loop.Idle := hloop ▸ ⟨rfl, by simp [Loop.empty]⟩
  obtain ⟨hs', hi'⟩ := World.after_sound hs hi hu
  exact .of_sound hs' hi'

/-- Two patrols of a cache with an entry that has expired; whichever sweeps it starts the first one
from the disposal action. -/
def rivals (acts : List Act) : Session where
  settings := .builtin
  now := 0
  interval := some (.int 0)
  checks := none
  disposals := some [⟨none, some 1, .plain [(.startPatrol "s", false)] .default⟩]
  acts := [.step (.fetch (.text "a") (.int 0) default), .step (.advance 1),
    .step (.newPatrol "s" (some (.int 1))), .step (.newPatrol "t" (some (.int 2)))] ++ acts

def prompt : Session :=
  rivals [.step (.startPatrol "t"), .step (.startPatrol "s"), .stopPatrol "s", .yield]

theorem coherence_prompt :
    ∃ w, prompt.start = .ok w ∧ w.undisturbed prompt.acts = true ∧
      (w.after prompt.acts).quieted.Coherence :=
  ⟨_, rfl, by decide +kernel, Session.coherence (s := prompt) rfl prompt.acts (by decide +kernel)⟩

/-- The second patrol sweeps when the first one's task has ended and its stop has yet to come back:
the stop forgets of the start. -/
def overtaking : Session :=
  rivals [.step (.startPatrol "s"), .step (.startPatrol "t"), .stopPatrol "s"]

theorem incoherent_overtaking :
    ∃ w, overtaking.start = .ok w ∧ ¬ (w.after overtaking.acts).loop.Coherent := by
  refine ⟨_, rfl, fun h => ?_⟩
  have := (h.told 0).2 (by decide +kernel)
  exact absurd this (by decide +kernel)

end Lapse
