import Lapse.Proofs.InPlace

namespace Lapse

namespace Loop

/-- The tasks in the queue are to run, no one twice, and every task is of a patrol that there is.
This also holds after a stop that was overtaken, when the books are not `Sound`. -/
structure Orderly (l : Loop) : Prop where
  queued : ∀ {j : Nat}, j ∈ l.due → ∃ t, l.tasks[j]? = some t ∧ t.isDue = true
  once : l.due.Nodup
  housed : ∀ {j : Nat} {t : Task}, l.tasks[j]? = some t → ∃ p, l.patrols[t.patrol]? = some p

variable {l l' : Loop} {j m n : Nat} {t : Task} {p : Patrol} {id : String} {q : List Turned}

theorem Orderly.congr (h : l.Orderly) (ht : l'.tasks = l.tasks) (hp : l'.patrols = l.patrols)
    (hd : l'.due = l.due) : l'.Orderly where
  queued := ht ▸ hd ▸ h.queued
  once := hd ▸ h.once
  housed := ht ▸ hp ▸ h.housed

theorem Orderly.add (h : l.Orderly) (p : Patrol) : (l.add p).Orderly where
  queued := h.queued
  once := h.once
  housed {j t} ht := by
    obtain ⟨p', hp'⟩ := h.housed (show l.tasks[j]? = some t from ht)
    exact ⟨p', by rw [Loop.add, List.getElem?_append_left (List.getElem?_eq_some_iff.1 hp').1, hp']⟩

theorem Orderly.start (h : l.Orderly) (hp : l.patrols[n]? = some p) : (l.start n).Orderly := by
  cases hr : l.isRunning n with
  | true => rwa [start_of_isRunning hr]
  | false =>
    constructor
    case queued =>
      intro j hj
      rw [due_start hr, List.mem_append, List.mem_singleton] at hj
      rw [tasks_start hr]
      obtain hj | rfl := hj
      · obtain ⟨t, ht, hd⟩ := h.queued hj
        exact ⟨t, by rw [if_neg (Nat.ne_of_lt (lt_of_task ht)), ht], hd⟩
      · exact ⟨_, if_pos rfl, rfl⟩
    case once =>
      rw [due_start hr, List.nodup_append]
      refine ⟨h.once, by simp, ?_⟩
      intro j hj m hm
      rw [List.mem_singleton.1 hm]
      obtain ⟨t, ht, -⟩ := h.queued hj
      exact Nat.ne_of_lt (lt_of_task ht)
    case housed =>
      intro j t ht
      have hhoused : ∃ p', l.patrols[t.patrol]? = some p' := by
        rw [tasks_start hr] at ht
        split at ht
        · cases ht
          exact ⟨p, hp⟩
        · exact h.housed ht
      obtain ⟨p', hp'⟩ := hhoused
      rw [patrols_start hr hp]
      split
      · exact ⟨_, rfl⟩
      · exact ⟨p', hp'⟩

theorem Orderly.grows (h : l.Orderly) (hg : l.Grows l') : l'.Orderly := by
  induction hg with
  | refl => exact h
  | add _ _ ih => exact ih.add _
  | start _ hp ih => exact ih.start hp

theorem Grows.not_due (hg : l.Grows l') (ht : l.tasks[m]? = some t) (hm : m ∉ l.due) :
    m ∉ l'.due := by
  induction hg with
  | refl => exact hm
  | add _ _ ih => exact ih
  | @start l' n p hg hp ih =>
    cases hr : l'.isRunning n with
    | true => rwa [start_of_isRunning hr]
    | false =>
      rw [due_start hr]
      simp [ih, Nat.ne_of_lt (lt_of_task (hg.tasks ht))]

theorem Orderly.restage (h : l.Orderly) (t' : Task) (ht : l.tasks[m]? = some t)
    (htasks : ∀ j, l'.tasks[j]? = if j = m then some t' else l.tasks[j]?)
    (hpatrols : l'.patrols = l.patrols) (hdue : l'.due = l.due) (hp : t'.patrol = t.patrol)
    (hm : m ∈ l.due → t'.isDue = true) : l'.Orderly where
  queued {j} hj := by
    rw [hdue] at hj
    rw [htasks]
    by_cases hjm : j = m
    · exact ⟨t', if_pos hjm, hm (hjm ▸ hj)⟩
    · rw [if_neg hjm]
      exact h.queued hj
  once := hdue ▸ h.once
  housed {j x} hx := by
    rw [hpatrols]
    rw [htasks] at hx
    split at hx
    · cases hx
      rw [hp]
      exact h.housed ht
    · exact h.housed hx

theorem Orderly.rouse (h : l.Orderly) (t' : Task) (ht : l.tasks[m]? = some t)
    (htasks : ∀ j, l'.tasks[j]? = if j = m then some t' else l.tasks[j]?)
    (hpatrols : l'.patrols = l.patrols) (hdue : l'.due = l.due ++ [m]) (hp : t'.patrol = t.patrol)
    (hd : t.isDue = false) (hd' : t'.isDue = true) : l'.Orderly := by
  have hm : m ∉ l.due := by
    intro hm
    obtain ⟨x, hx, hxd⟩ := h.queued hm
    rw [ht] at hx
    cases hx
    simp [hd] at hxd
  have hset : ({ l' with queue := l.queue } : Loop).Orderly :=
    h.restage t' ht htasks hpatrols rfl hp fun hmem => absurd hmem hm
  constructor
  case queued =>
    intro j hj
    rw [hdue, List.mem_append, List.mem_singleton] at hj
    obtain hj | rfl := hj
    · exact hset.queued hj
    · exact ⟨t', by rw [htasks, if_pos rfl], hd'⟩
  case once =>
    rw [hdue, List.nodup_append]
    refine ⟨h.once, by simp, ?_⟩
    rintro j hj i hi rfl
    exact hm (List.mem_singleton.1 hi ▸ hj)
  case housed => exact hset.housed

theorem Orderly.cancel (h : l.Orderly) : (l.cancel m).Orderly := by
  unfold Loop.cancel
  cases ht : l.tasks[m]? with
  | none => exact h
  | some t =>
    obtain ⟨patrol, stage, cancelled⟩ := t
    have hcalled : ∀ j, (l.callOff m).tasks[j]? =
        if j = m then some ⟨patrol, stage, true⟩ else l.tasks[j]? := by
      intro j
      rw [tasks_callOff, ht, Option.map_some]
    have hmark : m ∈ l.due → Task.isDue ⟨patrol, stage, true⟩ = true := by
      intro hm
      obtain ⟨x, hx, hxd⟩ := h.queued hm
      rw [ht] at hx
      cases hx
      exact hxd
    have hoff : (l.callOff m).Orderly :=
      h.restage _ ht hcalled patrols_callOff due_callOff rfl hmark
    cases stage with
    | ended how => exact h
    | fresh => exact hoff
    | woken => exact hoff
    | asleep =>
      refine hoff.rouse ⟨patrol, .woken, true⟩ ((hcalled m).trans (if_pos rfl))
        (tasks_setStage_of ((hcalled m).trans (if_pos rfl))) ?_ ?_ rfl rfl rfl
      · simp [enqueue]
      · rw [due_enqueue_task, due_setStage]

theorem Orderly.know (h : l.Orderly) (task : Option Nat) : (l.know n task).Orderly where
  queued := by rw [due_know, tasks_know]; exact h.queued
  once := by rw [due_know]; exact h.once
  housed {j t} ht := by
    rw [tasks_know] at ht
    obtain ⟨p, hp⟩ := h.housed ht
    rw [patrols_know]
    split
    · rename_i hn
      rw [← hn, hp]
      exact ⟨_, rfl⟩
    · exact ⟨p, hp⟩

theorem Orderly.next (h : l.Orderly) (hq : l.queue = .task m :: q) :
    ({ l with queue := q } : Loop).Orderly ∧ m ∉ ({ l with queue := q } : Loop).due ∧
      ∃ t, l.tasks[m]? = some t ∧ t.isDue = true := by
  have hdue : l.due = m :: ({ l with queue := q } : Loop).due := by
    simp [due, hq, Turned.task?]
  have honce := h.once
  rw [hdue, List.nodup_cons] at honce
  refine ⟨⟨fun {j} hj => h.queued ?_, honce.2, h.housed⟩, honce.1, h.queued ?_⟩
  · rw [hdue]
    exact List.mem_cons_of_mem _ hj
  · rw [hdue]
    exact List.mem_cons_self

theorem Orderly.takes (h : l.Orderly) (hm : m ∉ l.due) (ht : l.Takes m l') : l'.Orderly := by
  have hrise : (l.rise m).Orderly := h.congr tasks_rise patrols_rise (by simp [due])
  have hrest : ∀ {l₁ l₂ : Loop} {t : Task} {stage : Stage}, l₁.Orderly → m ∉ l₁.due →
      l₁.tasks[m]? = some t → l₂.tasks = (l₁.setStage m stage).tasks → l₂.patrols = l₁.patrols →
      l₂.due = l₁.due → l₂.Orderly := by
    intro l₁ l₂ t stage h₁ hm₁ ht₁ htasks hpatrols hdue
    exact h₁.restage { t with stage := stage } ht₁ (fun j => by rw [htasks, tasks_setStage_of ht₁])
      hpatrols hdue rfl fun hmem => absurd hmem hm₁
  have hmr : m ∉ (l.rise m).due := by simpa [due] using hm
  cases ht with
  | cancelled ht _ =>
    exact hrest hrise hmr (by rwa [tasks_rise]) tasks_finish patrols_finish due_finish
  | @failed t l₁ f ht _ hg =>
    have ht' : (l.rise m).tasks[m]? = some t := by rwa [tasks_rise]
    exact hrest (hrise.grows hg) (hg.not_due ht' hmr) (hg.tasks ht') tasks_finish patrols_finish
      due_finish
  | @slept t l₁ id ht _ hg =>
    have ht' : (l.rise m).tasks[m]? = some t := by rwa [tasks_rise]
    exact hrest (hrise.grows hg) (hg.not_due ht' hmr) (hg.tasks ht')
      (show (l₁.sleep m id).tasks = (l₁.setStage m .asleep).tasks from rfl)
      (patrols_setStage (l := l₁)) (due_setStage (l := l₁))

end Loop

/-- What sessions are made of: steps, turns of tasks, what else happens to the loop, and notices. -/
inductive Deed
  | step (s : Step)
  | race (steps : List Step)
  | turn (m : Nat)
  | resume
  | rouse (m : Nat)
  | cancel (m : Nat)
  | await (m : Nat)
  | forget (n : Nat)
  | tell (n : Notice)
  | heed (p : Patrol) (stop : StopAt)

namespace World

def alter (w : World) (c : Loop.Change) : World := { w with loop := w.loop.change c }

def does (w : World) : Deed → World
  | .step s => (w.perform [.begin s]).1
  | .race steps => (w.spawnAll steps).1.settle patience
  | .turn m => (w.alter .shift).turn m
  | .resume => w.alter .shift
  | .rouse m => w.alter (.rouse m)
  | .cancel m => w.alter (.cancel m)
  | .await m => w.alter (.await m)
  | .forget n => w.alter (.know n none)
  | .tell n => w.notice n
  | .heed p stop => w.heed p stop

def Fits (w : World) : Deed → Prop
  | .turn m => w.loop.queue.head? = some (.task m)
  | .resume => w.loop.queue.head? = some .caller
  | .rouse m => ∃ t, w.loop.tasks[m]? = some t ∧ t.isAsleep = true
  | _ => True

def done (w : World) (ds : List Deed) : World := ds.foldl (fun w d => w.quieted.does d) w

def shown (w : World) : List Deed → List Notice
  | [] => []
  | d :: ds => (w.quieted.does d).notices.reverse ++ (w.quieted.does d).shown ds

def Permits (w : World) : List Deed → Prop
  | [] => True
  | d :: ds => w.Fits d ∧ (w.quieted.does d).Permits ds

variable {K : Loop → Loop → Prop} {w w' w'' v : World} {l : Loop} {ns : List Notice} {d : Deed}
  {ds ds' : List Deed} {j k m n : Nat} {t : Task} {p : Patrol} {f : Fault}

theorem Twin.alter (hK : Loop.Blind K) (h : Twin K ns w v) (c : Loop.Change) :
    Twin K ns (w.alter c) (v.alter c) := by
  obtain ⟨l, hl, rfl⟩ := h
  exact ⟨l.change c, hK.change hl c, rfl⟩

theorem Twin.notice (h : Twin K ns w v) (n : Notice) : Twin K ns (w.notice n) (v.notice n) := by
  obtain ⟨l, hl, rfl⟩ := h
  exact ⟨l, hl, rfl⟩

theorem Twin.round (hK : Loop.Blind K) (h : Twin K ns w v) :
    Twin K ns w.round.1 v.round.1 ∧ v.round.2 = w.round.2 := by
  obtain ⟨hw, hr⟩ := h.perform hK [.begin .sweep]
  unfold World.round
  rcases hpw : w.perform [.begin .sweep] with ⟨w', r⟩
  rcases hpv : v.perform [.begin .sweep] with ⟨v', r'⟩
  rw [hpw, hpv] at hw hr
  obtain rfl : r' = r := hr
  cases r' with
  | ok x => exact ⟨hw, rfl⟩
  | error f =>
    cases hf : f.isOrdinary with
    | true => simpa [hf] using hw.notice _
    | false => simpa [hf] using hw

theorem turn_of_cancelled (ht : w.loop.tasks[m]? = some t) (hc : t.cancelled = true) :
    w.turn m = (w.alter (.rise m)).alter (.finish m .cancelled) := by
  rw [turn, ht]
  simp only [hc, if_true]
  rfl

theorem turn_of_fault (ht : w.loop.tasks[m]? = some t) (hc : t.cancelled = false)
    (hr : (w.alter (.rise m)).round = (w', some f)) :
    w.turn m = w'.alter (.finish m (.failed f)) := by
  have hr' : ({ w with loop := w.loop.rise m } : World).round = (w', some f) := hr
  rw [turn, ht]
  simp only [hc, hr', Bool.false_eq_true, if_false]
  rfl

theorem turn_of_calm (ht : w.loop.tasks[m]? = some t) (hc : t.cancelled = false)
    (hr : (w.alter (.rise m)).round = (w', none)) :
    w.turn m = match w'.loop.patrols[t.patrol]? with
      | none => w'
      | some p => (w'.alter (.sleep m p.id)).notice (.slept p.id p.interval) := by
  have hr' : ({ w with loop := w.loop.rise m } : World).round = (w', none) := hr
  rw [turn, ht]
  simp only [hc, hr', Bool.false_eq_true, if_false]
  rfl

theorem Twin.turn (hK : Loop.Blind K) (h : Twin K ns w v) (m : Nat) :
    Twin K ns (w.turn m) (v.turn m) := by
  have hlike : w.loop.Like v.loop := by
    obtain ⟨l, hl, rfl⟩ := h
    exact hK.like hl
  cases ht : w.loop.tasks[m]? with
  | none =>
    rw [World.turn, World.turn, ht, hlike.no_task ht]
    exact h
  | some t =>
    obtain ⟨t', ht', hface⟩ := hlike.task ht
    obtain ⟨hpatrol, hcancelled, -⟩ : t'.patrol = t.patrol ∧ t'.cancelled = t.cancelled ∧
        t'.isEnded = t.isEnded := by simpa [Task.face] using hface
    have hrisen := h.alter hK (.rise m)
    obtain ⟨hround, hr⟩ := hrisen.round hK
    cases hc : t.cancelled with
    | true =>
      rw [turn_of_cancelled ht hc, turn_of_cancelled ht' (hcancelled.trans hc)]
      exact hrisen.alter hK _
    | false =>
      rcases hw : (w.alter (.rise m)).round with ⟨w₁, r⟩
      rcases hv : (v.alter (.rise m)).round with ⟨v₁, r'⟩
      rw [hw, hv] at hround hr
      obtain rfl : r' = r := hr
      cases r' with
      | some f =>
        rw [turn_of_fault ht hc hw, turn_of_fault ht' (hcancelled.trans hc) hv]
        exact hround.alter hK _
      | none =>
        have hp : v₁.loop.patrols = w₁.loop.patrols := by
          obtain ⟨l, hl, rfl⟩ := hround
          exact (hK.like hl).patrols
        rw [turn_of_calm ht hc hw, turn_of_calm ht' (hcancelled.trans hc) hv, hp, hpatrol]
        cases w₁.loop.patrols[t.patrol]? with
        | none => exact hround
        | some p => exact (hround.alter hK _).notice _

theorem Twin.does (hK : Loop.Blind K) (h : Twin K ns w v) (d : Deed) :
    Twin K ns (w.does d) (v.does d) := by
  cases d with
  | step s => exact (h.perform hK _).1
  | race steps =>
    refine Twin.settle hK ?_ patience
    obtain ⟨l, hl, rfl⟩ := h
    rw [spawnAll_beside]
    exact .of_beside (by rwa [loop_spawnAll])
  | turn m => exact (h.alter hK .shift).turn hK m
  | tell n => exact h.notice n
  | heed p stop =>
    obtain ⟨l, hl, rfl⟩ := h
    exact ⟨l, hl, rfl⟩
  | resume => exact h.alter hK _
  | rouse m => exact h.alter hK _
  | cancel m => exact h.alter hK _
  | await m => exact h.alter hK _
  | forget n => exact h.alter hK _

structure Unfolds (w : World) (ds : List Deed) (w' : World) : Prop where
  permits : w.Permits ds
  after : w' = (w.done ds).noting ((w.shown ds).reverse ++ w.notices)

theorem noting_done (w : World) (ns ns' : List Notice) (ds : List Deed) :
    ((w.noting ns).done ds).noting ns' = (w.done ds).noting ns' := by
  cases ds with
  | nil => rfl
  | cons d ds => rfl

theorem noting_shown (w : World) (ns : List Notice) (ds : List Deed) :
    (w.noting ns).shown ds = w.shown ds := by
  cases ds with
  | nil => rfl
  | cons d ds => rfl

theorem noting_permits (ns : List Notice) : (w.noting ns).Permits ds ↔ w.Permits ds := by
  cases ds with
  | nil => rfl
  | cons d ds => cases d with
    | _ => rfl

theorem done_append (w : World) (ds ds' : List Deed) :
    w.done (ds ++ ds') = (w.done ds).done ds' := List.foldl_append

theorem shown_append (w : World) (ds ds' : List Deed) :
    w.shown (ds ++ ds') = w.shown ds ++ (w.done ds).shown ds' := by
  induction ds generalizing w with
  | nil => rfl
  | cons d ds ih =>
    rw [List.cons_append, shown, shown, ih, List.append_assoc]
    rfl

theorem permits_append : w.Permits (ds ++ ds') ↔ w.Permits ds ∧ (w.done ds).Permits ds' := by
  induction ds generalizing w with
  | nil => exact ⟨fun h => ⟨trivial, h⟩, fun h => h.2⟩
  | cons d ds ih =>
    rw [List.cons_append, Permits, Permits, ih, and_assoc]
    rfl

theorem Unfolds.nil : w.Unfolds [] w := ⟨trivial, rfl⟩

theorem Unfolds.trans (h : w.Unfolds ds w') (h' : w'.Unfolds ds' w'') :
    w.Unfolds (ds ++ ds') w'' := by
  have hafter := h'.after
  have hpermits := h'.permits
  rw [h.after] at hafter hpermits
  rw [noting_permits] at hpermits
  rw [noting_done, noting_shown] at hafter
  refine ⟨permits_append.2 ⟨h.permits, hpermits⟩, ?_⟩
  rw [hafter, done_append, shown_append]
  simp [noting]

end World

end Lapse
