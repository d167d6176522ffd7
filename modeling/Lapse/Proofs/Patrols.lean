import Mathlib.Data.List.Nodup
import Lapse.Session.Play

namespace Lapse

theorem getElem?_set_of_some {α : Type} {xs : List α} {n : Nat} {a : α} (h : xs[n]? = some a)
    (b : α) (j : Nat) : (xs.set n b)[j]? = if j = n then some b else xs[j]? := by
  by_cases hj : j = n
  · subst hj
    simp [(List.getElem?_eq_some_iff.1 h).1]
  · simp [hj, List.getElem?_set_ne (Ne.symm hj)]

theorem getElem?_concat {α : Type} (xs : List α) (a : α) (n : Nat) :
    (xs ++ [a])[n]? = if n = xs.length then some a else xs[n]? := by
  obtain hlt | rfl | hgt := Nat.lt_trichotomy n xs.length
  · rw [if_neg (Nat.ne_of_lt hlt), List.getElem?_append_left hlt]
  · simp
  · rw [if_neg (Nat.ne_of_gt hgt), List.getElem?_eq_none (by simpa using Nat.succ_le_of_lt hgt),
      List.getElem?_eq_none (Nat.le_of_lt hgt)]

def Task.isDue (t : Task) : Bool :=
  match t.stage with
  | .fresh => true
  | .woken => true
  | _ => false

theorem Task.not_ended_of_isDue {t : Task} (h : t.isDue = true) : t.isEnded = false := by
  obtain ⟨patrol, stage, cancelled⟩ := t
  cases stage with
  | ended how => cases h
  | _ => rfl

def Turned.task? : Turned → Option Nat
  | task n => some n
  | caller => none

namespace Loop

def unfinished (l : Loop) (n : Nat) : List Nat :=
  (List.range l.tasks.length).filter fun m =>
    (l.tasks[m]?).any fun t => t.patrol == n && !t.isEnded

/-- A patrol has at most one task that has not ended, and is running exactly when it has one. -/
structure Coherent (l : Loop) : Prop where
  alone : ∀ n, (l.unfinished n).length ≤ 1
  told : ∀ n, l.isRunning n = true ↔ l.unfinished n ≠ []

def due (l : Loop) : List Nat := l.queue.filterMap (·.task?)

/-- The books are right, while the task that is given has its turn: a patrol knows of its task that
has not ended, and tasks that are to run are in the queue, once. -/
structure Sound (turn : Option Nat) (l : Loop) : Prop where
  knows : ∀ {m : Nat} {t : Task}, l.tasks[m]? = some t → t.isEnded = false →
    ∃ p, l.patrols[t.patrol]? = some p ∧ p.task = some m
  owns : ∀ {n m : Nat} {p : Patrol}, l.patrols[n]? = some p → p.task = some m →
    ∃ t, l.tasks[m]? = some t ∧ t.patrol = n
  queued : ∀ {m : Nat}, m ∈ l.due ↔ turn ≠ some m ∧ ∃ t, l.tasks[m]? = some t ∧ t.isDue = true
  once : l.due.Nodup
  turn : ∀ {m : Nat}, turn = some m → ∃ t, l.tasks[m]? = some t ∧ t.isDue = true

variable {l l' : Loop} {c : Option Nat} {j m n : Nat} {t : Task} {p : Patrol} {stage : Stage}
  {how : TaskEnd} {id : String}

theorem mem_unfinished :
    m ∈ l.unfinished n ↔ ∃ t, l.tasks[m]? = some t ∧ t.patrol = n ∧ t.isEnded = false := by
  simp only [unfinished, List.mem_filter, List.mem_range, Option.any_eq_true, Bool.and_eq_true,
    beq_iff_eq, Bool.not_eq_true']
  constructor
  · rintro ⟨-, h⟩
    exact h
  · rintro ⟨t, ht, h⟩
    exact ⟨(List.getElem?_eq_some_iff.1 ht).1, t, ht, h⟩

theorem isRunning_iff : l.isRunning n = true ↔
    ∃ p m t, l.patrols[n]? = some p ∧ p.task = some m ∧ l.tasks[m]? = some t ∧
      t.isEnded = false := by
  simp only [isRunning]
  constructor
  · intro h
    split at h
    · rename_i t ht
      obtain ⟨m, hm, ht⟩ := Option.bind_eq_some_iff.1 ht
      obtain ⟨p, hp, hm⟩ := Option.bind_eq_some_iff.1 hm
      exact ⟨p, m, t, hp, hm, ht, by simpa using h⟩
    · cases h
  · rintro ⟨p, m, t, hp, hm, ht, he⟩
    simp [hp, hm, ht, he]

theorem mem_due : m ∈ l.due ↔ .task m ∈ l.queue := by
  simp only [due, List.mem_filterMap]
  constructor
  · rintro ⟨x, hx, h⟩
    cases x with
    | task m' =>
      cases h
      exact hx
    | caller => cases h
  · intro h
    exact ⟨_, h, rfl⟩

theorem Sound.unfinished_unique (hs : l.Sound c) (hj : j ∈ l.unfinished n)
    (hm : m ∈ l.unfinished n) : j = m := by
  obtain ⟨t, ht, rfl, he⟩ := mem_unfinished.1 hj
  obtain ⟨t', ht', hp, he'⟩ := mem_unfinished.1 hm
  obtain ⟨p, hp₁, hj⟩ := hs.knows ht he
  obtain ⟨p', hp₂, hm⟩ := hs.knows ht' he'
  rw [hp, hp₁] at hp₂
  cases hp₂
  exact Option.some.inj (hj.symm.trans hm)

theorem Sound.isRunning_iff (hs : l.Sound c) :
    l.isRunning n = true ↔ ∃ m, m ∈ l.unfinished n := by
  rw [Loop.isRunning_iff]
  constructor
  · rintro ⟨p, m, t, hp, hm, ht, he⟩
    obtain ⟨t', ht', hn⟩ := hs.owns hp hm
    rw [ht] at ht'
    cases ht'
    exact ⟨m, mem_unfinished.2 ⟨t, ht, hn, he⟩⟩
  · rintro ⟨m, hm⟩
    obtain ⟨t, ht, rfl, he⟩ := mem_unfinished.1 hm
    obtain ⟨p, hp, hm⟩ := hs.knows ht he
    exact ⟨p, m, t, hp, hm, ht, he⟩

theorem Sound.coherent (hs : l.Sound c) : l.Coherent where
  alone n := by
    have hnodup : (l.unfinished n).Nodup := List.nodup_range.filter _
    match hu : l.unfinished n with
    | [] => simp
    | [_] => simp
    | a :: b :: rest =>
      have hab : a = b :=
        hs.unfinished_unique (n := n) (by simp [hu]) (by simp [hu])
      rw [hu, hab] at hnodup
      simp at hnodup
  told n := by
    rw [hs.isRunning_iff]
    exact ⟨fun ⟨m, hm⟩ => List.ne_nil_of_mem hm, List.exists_mem_of_ne_nil _⟩

theorem Sound.empty : empty.Sound none where
  knows h := by simp [Loop.empty] at h
  owns h := by simp [Loop.empty] at h
  queued := by simp [Loop.empty, due]
  once := .nil
  turn h := by cases h

@[simp] theorem tasks_know (task : Option Nat) : (l.know n task).tasks = l.tasks := by
  unfold know
  split <;> rfl

@[simp] theorem queue_know (task : Option Nat) : (l.know n task).queue = l.queue := by
  unfold know
  split <;> rfl

@[simp] theorem awaited_know (task : Option Nat) : (l.know n task).awaited = l.awaited := by
  unfold know
  split <;> rfl

theorem patrols_know (task : Option Nat) :
    (l.know n task).patrols[j]? =
      if j = n then (l.patrols[n]?).map ({ · with task := task }) else l.patrols[j]? := by
  unfold know
  split
  · rename_i h
    by_cases hj : j = n
    · simp [hj, h]
    · simp [hj]
  · rename_i p h
    simp [getElem?_set_of_some h, h]

@[simp] theorem patrols_setStage : (l.setStage n stage).patrols = l.patrols := by
  unfold setStage
  split <;> rfl

@[simp] theorem queue_setStage : (l.setStage n stage).queue = l.queue := by
  unfold setStage
  split <;> rfl

@[simp] theorem awaited_setStage : (l.setStage n stage).awaited = l.awaited := by
  unfold setStage
  split <;> rfl

theorem tasks_setStage :
    (l.setStage n stage).tasks[j]? =
      if j = n then (l.tasks[n]?).map ({ · with stage := stage }) else l.tasks[j]? := by
  unfold setStage
  split
  · rename_i h
    by_cases hj : j = n
    · simp [hj, h]
    · simp [hj]
  · rename_i t h
    simp [getElem?_set_of_some h, h]

@[simp] theorem patrols_callOff : (l.callOff n).patrols = l.patrols := by
  unfold callOff
  split <;> rfl

@[simp] theorem queue_callOff : (l.callOff n).queue = l.queue := by
  unfold callOff
  split <;> rfl

@[simp] theorem awaited_callOff : (l.callOff n).awaited = l.awaited := by
  unfold callOff
  split <;> rfl

theorem tasks_callOff :
    (l.callOff n).tasks[j]? =
      if j = n then (l.tasks[n]?).map ({ · with cancelled := true }) else l.tasks[j]? := by
  unfold callOff
  split
  · rename_i h
    by_cases hj : j = n
    · simp [hj, h]
    · simp [hj]
  · rename_i t h
    simp [getElem?_set_of_some h, h]

@[simp] theorem due_enqueue_task : (l.enqueue (.task n)).due = l.due ++ [n] := by
  simp [due, enqueue, Turned.task?]

@[simp] theorem due_enqueue_caller : (l.enqueue .caller).due = l.due := by
  simp [due, enqueue, Turned.task?]

theorem start_eq (h : l.isRunning n = false) :
    l.start n = (({ l with tasks := l.tasks ++ [(⟨n, .fresh, false⟩ : Task)] } : Loop).know n
      (some l.tasks.length)).enqueue (.task l.tasks.length) := by
  simp [start, h]

theorem start_of_isRunning (h : l.isRunning n = true) : l.start n = l := by
  simp [start, h]

theorem tasks_start (h : l.isRunning n = false) (m : Nat) : (l.start n).tasks[m]? =
    if m = l.tasks.length then some ⟨n, .fresh, false⟩ else l.tasks[m]? := by
  simp only [start_eq h, enqueue, tasks_know]
  exact getElem?_concat ..

theorem patrols_start (h : l.isRunning n = false) (hp : l.patrols[n]? = some p) (j : Nat) :
    (l.start n).patrols[j]? =
      if j = n then some { p with task := some l.tasks.length } else l.patrols[j]? := by
  simp only [start_eq h, enqueue, patrols_know, hp, Option.map_some]

theorem queue_start (h : l.isRunning n = false) :
    (l.start n).queue = l.queue ++ [.task l.tasks.length] := by
  simp [start_eq h, enqueue]

theorem due_start (h : l.isRunning n = false) : (l.start n).due = l.due ++ [l.tasks.length] := by
  simp [due, queue_start h, Turned.task?]

theorem Sound.add (hs : l.Sound c) (hp : p.task = none) : (l.add p).Sound c where
  knows ht he := by
    obtain ⟨q, hq, hm⟩ := hs.knows ht he
    refine ⟨q, ?_, hm⟩
    rw [Loop.add, List.getElem?_append_left (List.getElem?_eq_some_iff.1 hq).1]
    exact hq
  owns {n m q} hq hm := by
    rw [Loop.add, getElem?_concat] at hq
    split at hq
    · cases hq
      simp [hp] at hm
    · exact hs.owns hq hm
  queued := hs.queued
  once := hs.once
  turn := hs.turn

theorem lt_of_task (h : l.tasks[m]? = some t) : m < l.tasks.length :=
  (List.getElem?_eq_some_iff.1 h).1

theorem Sound.start (hs : l.Sound c) (hp : l.patrols[n]? = some p) : (l.start n).Sound c := by
  cases hr : l.isRunning n with
  | true => rwa [start_of_isRunning hr]
  | false =>
    have hold : ∀ {m t}, l.tasks[m]? = some t → (l.start n).tasks[m]? = some t := fun h => by
      rwa [tasks_start hr, if_neg (Nat.ne_of_lt (lt_of_task h))]
    constructor
    case knows =>
      intro m t ht he
      rw [tasks_start hr] at ht
      split at ht
      · cases ht
        exact ⟨{ p with task := some l.tasks.length }, by simp [patrols_start hr hp],
          by simp [‹m = _›]⟩
      · obtain ⟨q, hq, hm⟩ := hs.knows ht he
        have hne : t.patrol ≠ n := by
          rintro rfl
          have := hs.isRunning_iff.2 ⟨m, mem_unfinished.2 ⟨t, ht, rfl, he⟩⟩
          simp [hr] at this
        exact ⟨q, by rwa [patrols_start hr hp, if_neg hne], hm⟩
    case owns =>
      intro j m q hq hm
      rw [patrols_start hr hp] at hq
      split at hq
      · cases hq
        cases hm
        exact ⟨⟨n, .fresh, false⟩, by simp [tasks_start hr], ‹j = n›.symm⟩
      · obtain ⟨t, ht, hj⟩ := hs.owns hq hm
        exact ⟨t, hold ht, hj⟩
    case queued =>
      intro m
      rw [due_start hr, List.mem_append, List.mem_singleton, hs.queued, tasks_start hr]
      by_cases hm : m = l.tasks.length
      · subst hm
        have hc : c ≠ some l.tasks.length := by
          intro hc
          obtain ⟨t, ht, -⟩ := hs.turn hc
          exact absurd (lt_of_task ht) (Nat.lt_irrefl _)
        simp [hc, Task.isDue]
      · simp [hm]
    case once =>
      have hnew : l.tasks.length ∉ l.due := fun h => by
        obtain ⟨-, t, ht, -⟩ := hs.queued.1 h
        exact absurd (lt_of_task ht) (Nat.lt_irrefl _)
      rw [due_start hr]
      exact hs.once.append (List.nodup_singleton _) (by simpa using hnew)
    case turn =>
      intro m hm
      obtain ⟨t, ht, hd⟩ := hs.turn hm
      exact ⟨t, hold ht, hd⟩

/-- What callbacks can do to the loop. -/
inductive Grows (l : Loop) : Loop → Prop
  | refl : Grows l l
  | add {l' : Loop} {p : Patrol} : Grows l l' → p.task = none → Grows l (l'.add p)
  | start {l' : Loop} {n : Nat} {p : Patrol} : Grows l l' → l'.patrols[n]? = some p →
    Grows l (l'.start n)

namespace Grows

theorem trans {l'' : Loop} (h : Grows l l') (h' : Grows l' l'') : Grows l l'' := by
  induction h' with
  | refl => exact h
  | add _ hp ih => exact ih.add hp
  | start _ hp ih => exact ih.start hp

theorem sound (h : Grows l l') (hs : l.Sound c) : l'.Sound c := by
  induction h with
  | refl => exact hs
  | add _ hp ih => exact ih.add hp
  | start _ hp ih => exact ih.start hp

theorem awaited (h : Grows l l') : l'.awaited = l.awaited := by
  induction h with
  | refl => rfl
  | add _ _ ih => exact ih
  | @start l' n p _ _ ih =>
    cases hr : l'.isRunning n with
    | true => rwa [start_of_isRunning hr]
    | false => simpa [start_eq hr, enqueue] using ih

theorem queue (h : Grows l l') : ∃ ms : List Nat, l'.queue = l.queue ++ ms.map .task := by
  induction h with
  | refl => exact ⟨[], by simp⟩
  | add _ _ ih => exact ih
  | @start l' n p _ _ ih =>
    obtain ⟨ms, hms⟩ := ih
    cases hr : l'.isRunning n with
    | true => exact ⟨ms, by rwa [start_of_isRunning hr]⟩
    | false => exact ⟨ms ++ [l'.tasks.length], by simp [queue_start hr, hms]⟩

theorem tasks (h : Grows l l') (ht : l.tasks[m]? = some t) : l'.tasks[m]? = some t := by
  induction h with
  | refl => exact ht
  | add _ _ ih => exact ih
  | @start l' n p _ _ ih =>
    cases hr : l'.isRunning n with
    | true => rwa [start_of_isRunning hr]
    | false => rwa [tasks_start hr, if_neg (Nat.ne_of_lt (lt_of_task ih))]

theorem patrols (h : Grows l l') (hp : l.patrols[n]? = some p) :
    ∃ p', l'.patrols[n]? = some p' := by
  induction h with
  | refl => exact ⟨p, hp⟩
  | add _ _ ih =>
    obtain ⟨p', hp'⟩ := ih
    refine ⟨p', ?_⟩
    rw [Loop.add, List.getElem?_append_left (List.getElem?_eq_some_iff.1 hp').1]
    exact hp'
  | @start l' j q _ hq ih =>
    obtain ⟨p', hp'⟩ := ih
    cases hr : l'.isRunning j with
    | true => exact ⟨p', by rwa [start_of_isRunning hr]⟩
    | false =>
      rw [patrols_start hr hq]
      split
      · exact ⟨_, rfl⟩
      · exact ⟨p', hp'⟩

end Grows

theorem Sound.restage {t' : Task} {d : Option Nat} (hs : l.Sound c) (ht : l.tasks[m]? = some t)
    (htasks : ∀ j, l'.tasks[j]? = if j = m then some t' else l.tasks[j]?)
    (hpatrols : l'.patrols = l.patrols) (hp : t'.patrol = t.patrol)
    (he : t.isEnded = true → t'.isEnded = true)
    (hqueued : ∀ {j : Nat}, j ∈ l'.due ↔ d ≠ some j ∧ ∃ x, l'.tasks[j]? = some x ∧ x.isDue = true)
    (honce : l'.due.Nodup)
    (hturn : ∀ {j : Nat}, d = some j → ∃ x, l'.tasks[j]? = some x ∧ x.isDue = true) :
    l'.Sound d where
  knows {j x} hx hxe := by
    rw [htasks] at hx
    rw [hpatrols]
    split at hx
    · rename_i hj
      subst hj
      cases hx
      have hte : t.isEnded = false := by
        cases h : t.isEnded with
        | false => rfl
        | true => simp [he h] at hxe
      rw [hp]
      exact hs.knows ht hte
    · exact hs.knows hx hxe
  owns {n j p} hp' hj := by
    rw [hpatrols] at hp'
    obtain ⟨x, hx, hn⟩ := hs.owns hp' hj
    rw [htasks]
    split
    · rename_i hjm
      subst hjm
      rw [ht] at hx
      cases hx
      exact ⟨t', rfl, hp.trans hn⟩
    · exact ⟨x, hx, hn⟩
  queued := hqueued
  once := honce
  turn := hturn

theorem Sound.rest (hs : l.Sound (some m)) (t' : Task) (ht : l.tasks[m]? = some t)
    (htasks : ∀ j, l'.tasks[j]? = if j = m then some t' else l.tasks[j]?)
    (hpatrols : l'.patrols = l.patrols) (hdue : l'.due = l.due) (hp : t'.patrol = t.patrol)
    (he : t.isEnded = true → t'.isEnded = true) (hd : t'.isDue = false) : l'.Sound none := by
  refine hs.restage ht htasks hpatrols hp he (fun {j} => ?_) (hdue ▸ hs.once) (by simp)
  rw [hdue, hs.queued, htasks]
  by_cases hj : j = m
  · simp [hj, hd]
  · simp [hj, Ne.symm hj]

theorem Sound.rouse (hs : l.Sound none) (t' : Task) (ht : l.tasks[m]? = some t)
    (htasks : ∀ j, l'.tasks[j]? = if j = m then some t' else l.tasks[j]?)
    (hpatrols : l'.patrols = l.patrols) (hdue : l'.due = l.due ++ [m])
    (hp : t'.patrol = t.patrol) (he : t.isEnded = false) (hd : t.isDue = false)
    (hd' : t'.isDue = true) : l'.Sound none := by
  have hno : m ∉ l.due := fun h => by
    obtain ⟨-, x, hx, hxd⟩ := hs.queued.1 h
    rw [ht] at hx
    cases hx
    simp [hd] at hxd
  refine hs.restage ht htasks hpatrols hp (by simp [he]) (fun {j} => ?_) ?_ (by simp)
  · rw [hdue, List.mem_append, List.mem_singleton, hs.queued, htasks]
    by_cases hj : j = m
    · simp [hj, hd']
    · simp [hj]
  · rw [hdue]
    exact hs.once.append (List.nodup_singleton _) (by simpa using hno)

theorem Sound.next {q : List Turned} (hs : l.Sound none) (hq : l.queue = .task m :: q) :
    ({ l with queue := q } : Loop).Sound (some m) := by
  have hdue : l.due = m :: ({ l with queue := q } : Loop).due := by simp [due, hq, Turned.task?]
  have hnodup := hs.once
  rw [hdue, List.nodup_cons] at hnodup
  have hmem : m ∈ l.due := by simp [hdue]
  refine ⟨hs.knows, hs.owns, fun {j} => ?_, hnodup.2, fun h => ?_⟩
  · have hj := hs.queued (m := j)
    rw [hdue, List.mem_cons] at hj
    constructor
    · intro h
      refine ⟨?_, (hj.1 (.inr h)).2⟩
      rintro ⟨⟩
      exact hnodup.1 h
    · rintro ⟨hne, h⟩
      obtain rfl | h := hj.2 ⟨by simp, h⟩
      · exact absurd rfl hne
      · exact h
  · cases h
    exact (hs.queued.1 hmem).2

theorem Sound.congr (hs : l.Sound c) (ht : l'.tasks = l.tasks) (hp : l'.patrols = l.patrols)
    (hd : l'.due = l.due) : l'.Sound c where
  knows := ht ▸ hp ▸ hs.knows
  owns := ht ▸ hp ▸ hs.owns
  queued := ht ▸ hd ▸ hs.queued
  once := hd ▸ hs.once
  turn := ht ▸ hs.turn

theorem Sound.resume {q : List Turned} (hs : l.Sound none) (hq : l.queue = .caller :: q) :
    ({ l with queue := q } : Loop).Sound none :=
  hs.congr rfl rfl (by simp [due, hq, Turned.task?])

@[simp] theorem tasks_rise : (l.rise m).tasks = l.tasks := by
  unfold rise
  split <;> rfl

@[simp] theorem patrols_rise : (l.rise m).patrols = l.patrols := by
  unfold rise
  split <;> rfl

@[simp] theorem queue_rise : (l.rise m).queue = l.queue := by
  unfold rise
  split <;> rfl

@[simp] theorem awaited_rise : (l.rise m).awaited = l.awaited := by
  unfold rise
  split <;> rfl

theorem Sound.rise (hs : l.Sound c) : (l.rise m).Sound c :=
  hs.congr tasks_rise patrols_rise (by simp [due])

theorem tasks_setStage_of (ht : l.tasks[m]? = some t) (j : Nat) : (l.setStage m stage).tasks[j]? =
    if j = m then some { t with stage := stage } else l.tasks[j]? := by
  rw [tasks_setStage, ht, Option.map_some]

theorem due_setStage : (l.setStage m stage).due = l.due := by simp [due]

theorem due_callOff : (l.callOff m).due = l.due := by simp [due]

theorem due_know (task : Option Nat) : (l.know n task).due = l.due := by simp [due]

theorem Sound.sleep (hs : l.Sound (some m)) : (l.sleep m id).Sound none := by
  obtain ⟨t, ht, hd⟩ := hs.turn rfl
  exact hs.rest { t with stage := .asleep } ht (tasks_setStage_of ht) patrols_setStage
    due_setStage rfl (by simp [Task.not_ended_of_isDue hd]) rfl

theorem tasks_finish : (l.finish m how).tasks = (l.setStage m (.ended how)).tasks := by
  simp only [finish]
  split <;> rfl

theorem due_finish : (l.finish m how).due = l.due := by
  simp only [finish]
  split
  · exact due_enqueue_caller.trans due_setStage
  · exact due_setStage

theorem patrols_finish : (l.finish m how).patrols = l.patrols := by
  simp only [finish]
  split
  · exact patrols_setStage
  · exact patrols_setStage

theorem Sound.finish (hs : l.Sound (some m)) : (l.finish m how).Sound none := by
  obtain ⟨t, ht, hd⟩ := hs.turn rfl
  refine hs.rest { t with stage := .ended how } ht (fun j => ?_) patrols_finish due_finish
    rfl (fun _ => rfl) rfl
  rw [tasks_finish]
  exact tasks_setStage_of ht j

end Loop

end Lapse
