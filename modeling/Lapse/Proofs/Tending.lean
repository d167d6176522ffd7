import Lapse.Proofs.Deeds

namespace Lapse

def Deed.plain (m : Nat) : Deed → Deed
  | .turn j => if j = m then .step .sweep else .turn j
  | d => d

namespace World

def Accords (w v : World) : Prop := ∃ l, v.quieted = { w.quieted with loop := l }

structure Alike (w v : World) : Prop where
  accords : w.Accords v
  loops : w.loop.Like v.loop

def plainly (w : World) (m : Nat) (ds : List Deed) : World := w.done (ds.map (.plain m))

/-- The task is not called off, and the sweeps in place of its turns are calm. -/
structure Tranquil (w : World) (m : Nat) (ds : List Deed) : Prop where
  kept : .cancel m ∉ ds
  calm : ∀ before after, ds = before ++ .turn m :: after → (w.plainly m before).Calm

/-- What becomes of a task of a patrol, after a world in which it has neither ended nor been called
off. -/
structure Tended (w : World) (m : Nat) (p : Patrol) : Prop where
  alike : ∀ {ds : List Deed}, w.Permits ds → w.Tranquil m ds →
    (w.done ds).Alike (w.plainly m ds) ∧
      ∃ t, (w.done ds).loop.tasks[m]? = some t ∧ t.isEnded = false ∧ t.cancelled = false
  others : ∀ {ds : List Deed} {d : Deed}, w.Permits (ds ++ [d]) → w.Tranquil m ds → d ≠ .turn m →
    (w.done (ds ++ [d])).notices = (w.plainly m (ds ++ [d])).notices
  rounds : ∀ {ds : List Deed}, w.Permits (ds ++ [.turn m]) → w.Tranquil m (ds ++ [.turn m]) →
    (∃ t, (w.done ds).loop.tasks[m]? = some t ∧ t.isDue = true) ∧
      (w.done (ds ++ [.turn m])).notices.reverse = (w.plainly m ds).sweepShow p ∧
      ∃ t, (w.done (ds ++ [.turn m])).loop.tasks[m]? = some t ∧ t.isAsleep = true
  fatal : ∀ {ds ds' : List Deed} {f : Fault}, w.Permits (ds ++ .turn m :: ds') → w.Tranquil m ds →
    ((w.plainly m ds).play (.step .sweep)).2.out.result = .error f → f.isOrdinary = false →
    (w.done (ds ++ [.turn m])).notices.reverse =
        ((w.plainly m ds).play (.step .sweep)).2.notices ∧
      (w.done (ds ++ [.turn m])).Accords ((w.plainly m ds).play (.step .sweep)).1 ∧
      (∃ t, (w.done (ds ++ [.turn m])).loop.tasks[m]? = some t ∧
        t.stage = .ended (.failed f)) ∧
      .turn m ∉ ds'
  cancelled : ∀ {ds before after : List Deed},
    w.Permits (ds ++ .cancel m :: (before ++ .turn m :: after)) → w.Tranquil m ds →
    (w.done (ds ++ .cancel m :: (before ++ [.turn m]))).notices = [] ∧
      (w.done (ds ++ .cancel m :: before)).Accords
        (w.done (ds ++ .cancel m :: (before ++ [.turn m]))) ∧
      (∃ t, (w.done (ds ++ .cancel m :: (before ++ [.turn m]))).loop.tasks[m]? = some t ∧
        t.stage = .ended .cancelled) ∧
      .turn m ∉ after

end World

namespace Loop

variable {l l' : Loop} {m n : Nat} {t : Task} {p : Patrol}

def signs (l : Loop) : List (String × Binary64) := l.patrols.map fun p => (p.id, p.interval)

theorem getElem?_signs {x : String × Binary64} (h : l.signs <+: l'.signs)
    (hx : l.signs[n]? = some x) : l'.signs[n]? = some x := by
  obtain ⟨rest, hrest⟩ := h
  rw [← hrest, List.getElem?_append_left (List.getElem?_eq_some_iff.1 hx).1, hx]

theorem signs_know (task : Option Nat) : (l.know n task).signs = l.signs := by
  refine List.ext_getElem? fun j => ?_
  simp only [signs, List.getElem?_map, patrols_know]
  by_cases hj : j = n
  · subst hj
    simp [Option.map_map, Function.comp_def]
  · rw [if_neg hj]

theorem signs_start : (l.start n).signs = l.signs := by
  cases hr : l.isRunning n with
  | true => rw [start_of_isRunning hr]
  | false =>
    rw [start_eq hr]
    exact signs_know (l := { l with tasks := l.tasks ++ [(⟨n, .fresh, false⟩ : Task)] }) _

theorem Grows.signs (hg : l.Grows l') : l.signs <+: l'.signs := by
  induction hg with
  | refl => exact List.prefix_rfl
  | add _ _ ih => exact ih.trans (by simp [Loop.signs, Loop.add])
  | start _ _ ih => rwa [signs_start]

theorem signs_of_patrols (h : l'.patrols = l.patrols) : l.signs <+: l'.signs := by
  have hsame : l'.signs = l.signs := by rw [signs, signs, h]
  exact hsame ▸ List.prefix_rfl

theorem Takes.signs (ht : l.Takes m l') : l.signs <+: l'.signs := by
  have hrise : l.signs <+: (l.rise m).signs := signs_of_patrols patrols_rise
  cases ht with
  | cancelled _ _ => exact hrise.trans (signs_of_patrols patrols_finish)
  | failed f _ _ hg => exact (hrise.trans hg.signs).trans (signs_of_patrols patrols_finish)
  | @slept _ l₁ id _ _ hg =>
    exact (hrise.trans hg.signs).trans (signs_of_patrols (patrols_setStage (l := l₁)))

theorem patrols_cancel : (l.cancel n).patrols = l.patrols := by
  unfold Loop.cancel
  split
  · rfl
  · split
    · rfl
    · change ((l.callOff n).setStage n .woken).patrols = _
      rw [patrols_setStage, patrols_callOff]
    · exact patrols_callOff

theorem tasks_cancel_of_ne (hm : m ≠ n) : (l.cancel n).tasks[m]? = l.tasks[m]? := by
  have hoff : (l.callOff n).tasks[m]? = l.tasks[m]? := by rw [tasks_callOff, if_neg hm]
  unfold Loop.cancel
  split
  · rfl
  · split
    · rfl
    · change ((l.callOff n).setStage n .woken).tasks[m]? = _
      rw [tasks_setStage, if_neg hm, hoff]
    · exact hoff

end Loop

namespace World

variable {w v : World} {d : Deed} {ds ds' : List Deed} {i m n : Nat} {t : Task} {p : Patrol}
  {f : Fault}

theorem turn_of_fits (h : w.loop.Orderly) (hf : w.Fits (.turn m)) :
    ∃ t, w.loop.tasks[m]? = some t ∧ t.isDue = true ∧ (w.alter .shift).loop.Orderly ∧
      m ∉ (w.alter .shift).loop.due ∧ (w.alter .shift).loop.Takes m (w.does (.turn m)).loop := by
  obtain ⟨q, hq⟩ : ∃ q, w.loop.queue = .task m :: q := List.head?_eq_some_iff.1 hf
  have hloop : (w.alter .shift).loop = { w.loop with queue := q } := by
    simp [alter, Loop.change, hq]
  obtain ⟨horderly, hnot, t, ht, hd⟩ := h.next hq
  obtain ⟨p, hp⟩ := h.housed ht
  refine ⟨t, ht, hd, by rwa [hloop], by rwa [hloop], ?_⟩
  exact turn_takes (w := w.alter .shift) ht hp

theorem orderly_does (h : w.loop.Orderly) (hf : w.Fits d) : (w.does d).loop.Orderly := by
  cases d with
  | step s => exact h.grows (perform_grows _)
  | race steps =>
    have hg := settle_grows (w := (w.spawnAll steps).1) patience
    rw [loop_spawnAll] at hg
    exact h.grows hg
  | turn m =>
    obtain ⟨-, -, -, horderly, hm, htakes⟩ := turn_of_fits h hf
    exact horderly.takes hm htakes
  | resume =>
    obtain ⟨q, hq⟩ : ∃ q, w.loop.queue = .caller :: q := List.head?_eq_some_iff.1 hf
    exact h.congr rfl rfl (by simp [does, alter, Loop.change, Loop.due, hq, Turned.task?])
  | rouse m =>
    obtain ⟨⟨patrol, stage, cancelled⟩, ht, hasleep⟩ := hf
    have hd : Task.isDue ⟨patrol, stage, cancelled⟩ = false := by
      cases stage with
      | asleep => rfl
      | _ => cases hasleep
    refine h.rouse ⟨patrol, .woken, cancelled⟩ ht (Loop.tasks_setStage_of ht)
      (Loop.patrols_setStage (l := w.loop)) ?_ rfl hd rfl
    simp [does, alter, Loop.change, Loop.due_setStage]
  | cancel m => exact h.cancel
  | await m => exact h.congr rfl rfl rfl
  | forget n => exact h.know none
  | tell n => exact h
  | heed p stop => exact h

theorem signs_does (h : w.loop.Orderly) (hf : w.Fits d) :
    w.loop.signs <+: (w.does d).loop.signs := by
  cases d with
  | step s => exact (perform_grows _).signs
  | race steps =>
    have hg := settle_grows (w := (w.spawnAll steps).1) patience
    rw [loop_spawnAll] at hg
    exact hg.signs
  | turn m =>
    obtain ⟨-, -, -, -, -, htakes⟩ := turn_of_fits h hf
    exact htakes.signs
  | rouse m => exact Loop.signs_of_patrols (Loop.patrols_setStage (l := w.loop))
  | cancel m => exact Loop.signs_of_patrols Loop.patrols_cancel
  | forget n =>
    have hsame : (w.does (.forget n)).loop.signs = w.loop.signs := Loop.signs_know none
    exact hsame ▸ List.prefix_rfl
  | resume => exact List.prefix_rfl
  | await j => exact List.prefix_rfl
  | tell n => exact List.prefix_rfl
  | heed p stop => exact List.prefix_rfl

theorem face_does (h : w.loop.Orderly) (hf : w.Fits d) (ht : w.loop.tasks[m]? = some t)
    (hturn : d ≠ .turn m) (hcancel : d ≠ .cancel m) :
    ∃ t', (w.does d).loop.tasks[m]? = some t' ∧ t'.face = t.face := by
  cases d with
  | step s => exact ⟨t, (perform_grows _).tasks ht, rfl⟩
  | race steps =>
    have hg := settle_grows (w := (w.spawnAll steps).1) patience
    rw [loop_spawnAll] at hg
    exact ⟨t, hg.tasks ht, rfl⟩
  | turn j =>
    obtain ⟨-, -, -, -, -, htakes⟩ := turn_of_fits h hf
    exact ⟨t, htakes.other (fun hj => hturn (by rw [hj])) ht, rfl⟩
  | rouse j =>
    obtain ⟨x, hx, hasleep⟩ := hf
    have htasks : (w.does (.rouse j)).loop.tasks[m]? =
        if m = j then some { x with stage := .woken } else w.loop.tasks[m]? :=
      Loop.tasks_setStage_of hx m
    rw [htasks]
    split
    · rename_i hmj
      rw [← hmj, ht] at hx
      cases hx
      obtain ⟨patrol, stage, cancelled⟩ := t
      cases stage with
      | asleep => exact ⟨_, rfl, rfl⟩
      | _ => cases hasleep
    · exact ⟨t, ht, rfl⟩
  | cancel j =>
    have hmj : m ≠ j := by
      rintro rfl
      exact hcancel rfl
    exact ⟨t, (Loop.tasks_cancel_of_ne hmj).trans ht, rfl⟩
  | forget n => exact ⟨t, by rwa [does, alter, Loop.change, Loop.tasks_know], rfl⟩
  | resume => exact ⟨t, ht, rfl⟩
  | await j => exact ⟨t, ht, rfl⟩
  | tell n => exact ⟨t, ht, rfl⟩
  | heed p stop => exact ⟨t, ht, rfl⟩

theorem fits_quieted : w.quieted.Fits d ↔ w.Fits d := by
  cases d with
  | _ => rfl

theorem Alike.twin (h : w.Alike v) : Twin Loop.Like [] w.quieted v.quieted := by
  obtain ⟨l, hl⟩ := h.accords
  have hloop : v.loop = l := congrArg World.loop hl
  exact ⟨l, hloop ▸ h.loops, hl⟩

theorem Alike.of_twin {ns : List Notice} (h : Twin Loop.Like ns w v) : w.Alike v := by
  obtain ⟨l, hl, rfl⟩ := h
  exact ⟨⟨l, rfl⟩, hl⟩

theorem Alike.refl : w.Alike w := ⟨⟨w.loop, rfl⟩, .refl⟩

theorem notices_of_twin {K : Loop → Loop → Prop} (h : Twin K [] w v) : v.notices = w.notices := by
  obtain ⟨l, -, rfl⟩ := h
  exact List.append_nil _

theorem Alike.does (h : w.Alike v) (d : Deed) :
    (w.quieted.does d).Alike (v.quieted.does d) ∧
      (v.quieted.does d).notices = (w.quieted.does d).notices :=
  have htwin := h.twin.does .alike d
  ⟨.of_twin htwin, notices_of_twin htwin⟩

theorem Alike.sweep (h : w.Alike v) :
    (w.play (.step .sweep)).1.Alike (v.play (.step .sweep)).1 ∧
      (v.play (.step .sweep)).2.notices = (w.play (.step .sweep)).2.notices ∧
      (v.play (.step .sweep)).2.out.result = (w.play (.step .sweep)).2.out.result := by
  obtain ⟨htwin, hr⟩ := h.twin.perform .alike [.begin .sweep]
  exact ⟨.of_twin htwin, congrArg List.reverse (notices_of_twin htwin), hr⟩

theorem Alike.sweepShow (h : w.Alike v) (p : Patrol) : w.sweepShow p = v.sweepShow p := by
  obtain ⟨-, hn, hr⟩ := h.sweep
  rw [World.sweepShow, World.sweepShow, hn, hr]

theorem Alike.calm (h : w.Alike v) (hc : v.Calm) : w.Calm := by
  obtain ⟨-, -, hr⟩ := h.sweep
  intro f hf
  exact hc f (hr.trans hf)

theorem Alike.relooped {l : Loop} (h : w.Alike v) (hl : w.loop.Like l) (ns : List Notice) :
    ({ w with loop := l, notices := ns } : World).Alike v :=
  ⟨h.accords, hl.symm.trans h.loops⟩

def risen (w : World) (m : Nat) : World := (w.quieted.alter .shift).alter (.rise m)

theorem Alike.risen (h : w.Alike v) (m : Nat) : (w.risen m).Alike v := by
  have hshift : w.loop.Like (w.quieted.alter .shift).loop := ⟨rfl, rfl⟩
  exact h.relooped (hshift.trans Loop.like_rise) []

structure Tends (w v : World) (m n : Nat) (p : Patrol) : Prop where
  alike : w.Alike v
  orderly : w.loop.Orderly
  task : ∃ t, w.loop.tasks[m]? = some t ∧ t.face = (n, false, false)
  sign : w.loop.signs[n]? = some (p.id, p.interval)

theorem Tends.other (h : w.Tends v m n p) (hf : w.Fits d) (hturn : d ≠ .turn m)
    (hcancel : d ≠ .cancel m) : (w.quieted.does d).Tends (v.quieted.does d) m n p := by
  have hf' := fits_quieted.2 hf
  obtain ⟨t, ht, hface⟩ := h.task
  obtain ⟨t', ht', hface'⟩ := face_does (w := w.quieted) h.orderly hf' ht hturn hcancel
  have hsign : ((w.quieted.does d).loop.signs)[n]? = some (p.id, p.interval) :=
    Loop.getElem?_signs (signs_does (w := w.quieted) h.orderly hf') h.sign
  exact ⟨(h.alike.does d).1, orderly_does (w := w.quieted) h.orderly hf',
    ⟨t', ht', hface'.trans hface⟩, hsign⟩

theorem Tends.swept (h : w.Tends v m n p) : ∃ t p',
    w.loop.tasks[m]? = some t ∧ t.face = (n, false, false) ∧
      ((w.risen m).play (.step .sweep)).1.loop.tasks[m]? = some t ∧
      ((w.risen m).play (.step .sweep)).1.loop.patrols[t.patrol]? = some p' ∧
      p'.id = p.id ∧ p'.interval = p.interval := by
  obtain ⟨t, ht, hface⟩ := h.task
  have hpatrol : t.patrol = n := congrArg (·.1) hface
  have hgrows : (w.risen m).loop.Grows ((w.risen m).play (.step .sweep)).1.loop :=
    perform_grows (w := (w.risen m).quieted) [.begin .sweep]
  have htask : (w.risen m).loop.tasks[m]? = some t := by
    rwa [risen, alter, Loop.change, Loop.tasks_rise]
  have hsigns : w.loop.signs <+: (w.risen m).loop.signs :=
    Loop.signs_of_patrols (Loop.patrols_rise (l := (w.quieted.alter .shift).loop))
  have hsign := Loop.getElem?_signs (hsigns.trans hgrows.signs) h.sign
  rw [Loop.signs, List.getElem?_map, Option.map_eq_some_iff] at hsign
  obtain ⟨p', hp', hsame⟩ := hsign
  exact ⟨t, p', ht, hface, hgrows.tasks htask, hpatrol ▸ hp', congrArg (·.1) hsame,
    congrArg (·.2) hsame⟩

theorem Alike.asleep (h : w.Alike v) (ht : w.loop.tasks[m]? = some t) (he : t.isEnded = false)
    (ns : List Notice) (p : Patrol) :
    (((w.noting ns).alter (.sleep m p.id)).notice (.slept p.id p.interval)).Alike v ∧
      (((w.noting ns).alter (.sleep m p.id)).notice (.slept p.id p.interval)).loop.tasks[m]? =
        some { t with stage := .asleep } := by
  have hlike : w.loop.Like (w.loop.sleep m p.id) := by
    have hstage := Loop.like_setStage .asleep ht he.symm
    exact ⟨hstage.patrols, hstage.faces⟩
  exact ⟨h.relooped hlike _, (Loop.tasks_setStage_of ht m).trans (if_pos rfl)⟩

theorem Accords.finished (h : w.Accords v) (ns : List Notice) (how : TaskEnd) :
    ((w.noting ns).alter (.finish m how)).Accords v := h

theorem tasks_finished (ht : w.loop.tasks[m]? = some t) (ns : List Notice) (how : TaskEnd) :
    ((w.noting ns).alter (.finish m how)).loop.tasks[m]? = some { t with stage := .ended how } := by
  rw [alter, Loop.change, Loop.tasks_finish]
  exact (Loop.tasks_setStage_of ht m).trans (if_pos rfl)

theorem Tends.calm (h : w.Tends v m n p) (hf : w.Fits (.turn m)) (hc : v.Calm) :
    (w.quieted.does (.turn m)).Tends (v.play (.step .sweep)).1 m n p ∧
      (w.quieted.does (.turn m)).notices.reverse = v.sweepShow p ∧
      ∃ t, (w.quieted.does (.turn m)).loop.tasks[m]? = some t ∧ t.isAsleep = true := by
  obtain ⟨t, p', ht, hface, ht', hp', hid, hinterval⟩ := h.swept
  have hrisen := h.alike.risen m
  have he : t.isEnded = false := congrArg (·.2.2) hface
  obtain ⟨halike, htasks⟩ := hrisen.sweep.1.asleep ht' he
    (((w.risen m).play (.step .sweep)).2.notices ++
      failures ((w.risen m).play (.step .sweep)).2.out.result).reverse p'
  -- the turn in two steps: the round, and then the sleep
  have hturn : w.quieted.does (.turn m) =
      ((((w.risen m).play (.step .sweep)).1.noting
        (((w.risen m).play (.step .sweep)).2.notices ++
          failures ((w.risen m).play (.step .sweep)).2.out.result).reverse).alter
          (.sleep m p'.id)).notice (.slept p'.id p'.interval) := by
    have hround := round_of_calm (hrisen.calm hc) []
    rw [List.append_nil] at hround
    have := turn_of_calm (w := w.quieted.alter .shift) ht (congrArg (·.2.1) hface) hround
    rw [does, this]
    simp only [noting, hp']
  have hshown : (w.quieted.does (.turn m)).notices.reverse = v.sweepShow p := by
    rw [hturn, ← hrisen.sweepShow p, sweepShow, ← hid, ← hinterval]
    simp [notice, alter, noting]
  have horderly : (w.quieted.does (.turn m)).loop.Orderly :=
    orderly_does (w := w.quieted) h.orderly (fits_quieted.2 hf)
  have hsign := Loop.getElem?_signs
    (signs_does (w := w.quieted) h.orderly (fits_quieted.2 hf)) h.sign
  rw [← hturn] at halike htasks
  refine ⟨⟨halike, horderly, ⟨_, htasks, ?_⟩, hsign⟩, hshown, _, htasks, rfl⟩
  rw [← hface, Task.face, Task.face, he]
  rfl

theorem Tends.fatal (h : w.Tends v m n p) (hr : (v.play (.step .sweep)).2.out.result = .error f)
    (hf : f.isOrdinary = false) :
    (w.quieted.does (.turn m)).notices.reverse = (v.play (.step .sweep)).2.notices ∧
      (w.quieted.does (.turn m)).Accords (v.play (.step .sweep)).1 ∧
      ∃ t, (w.quieted.does (.turn m)).loop.tasks[m]? = some t ∧ t.stage = .ended (.failed f) := by
  obtain ⟨t, p', ht, hface, ht', -, -, -⟩ := h.swept
  obtain ⟨hswept, hnotices, hresult⟩ := (h.alike.risen m).sweep
  have hturn : w.quieted.does (.turn m) =
      (((w.risen m).play (.step .sweep)).1.noting
        (((w.risen m).play (.step .sweep)).2.notices).reverse).alter (.finish m (.failed f)) := by
    have hround := round_of_fatal (hresult.symm.trans hr) hf []
    rw [List.append_nil] at hround
    exact turn_of_fault (w := w.quieted.alter .shift) ht (congrArg (·.2.1) hface) hround
  rw [hturn, hnotices]
  exact ⟨List.reverse_reverse _, hswept.accords.finished _ _, _, tasks_finished ht' _ _, rfl⟩

theorem turn_cancelled (ht : w.loop.tasks[m]? = some t) (hc : t.cancelled = true) :
    (w.quieted.does (.turn m)).notices = [] ∧ w.Accords (w.quieted.does (.turn m)) ∧
      ∃ t, (w.quieted.does (.turn m)).loop.tasks[m]? = some t ∧ t.stage = .ended .cancelled := by
  have hturn : w.quieted.does (.turn m) = ((w.risen m).noting []).alter (.finish m .cancelled) :=
    turn_of_cancelled (w := w.quieted.alter .shift) ht hc
  have ht' : (w.risen m).loop.tasks[m]? = some t := by
    rwa [risen, alter, Loop.change, Loop.tasks_rise]
  rw [hturn]
  exact ⟨rfl, ⟨_, rfl⟩, _, tasks_finished ht' _ _, rfl⟩

theorem ended_does (h : w.loop.Orderly) (hf : w.Fits d) (ht : w.loop.tasks[m]? = some t)
    (he : t.isEnded = true) :
    d ≠ .turn m ∧ ∃ t', (w.does d).loop.tasks[m]? = some t' ∧ t'.isEnded = true := by
  have hturn : d ≠ .turn m := by
    rintro rfl
    obtain ⟨t', ht', hd, -⟩ := turn_of_fits h hf
    rw [ht] at ht'
    cases ht'
    simp [Task.not_ended_of_isDue hd] at he
  refine ⟨hturn, ?_⟩
  by_cases hc : d = .cancel m
  · refine ⟨t, ?_, he⟩
    rw [hc, does, alter, Loop.change, Loop.cancel_of_ended ht he]
    exact ht
  · obtain ⟨t', ht', hface⟩ := face_does h hf ht hturn hc
    exact ⟨t', ht', (congrArg (·.2.2) hface).trans he⟩

theorem not_turned (h : w.loop.Orderly) (hp : w.Permits ds) (ht : w.loop.tasks[m]? = some t)
    (he : t.isEnded = true) : .turn m ∉ ds := by
  induction ds generalizing w t with
  | nil => simp
  | cons d ds ih =>
    have hf := fits_quieted.2 hp.1
    obtain ⟨hturn, t', ht', he'⟩ := ended_does (w := w.quieted) h hf ht he
    have hrest := ih (orderly_does (w := w.quieted) h hf) hp.2 ht' he'
    simp [hturn.symm, hrest]

theorem face_cancel (ht : w.loop.tasks[m]? = some t) (he : t.isEnded = false) :
    ∃ t', (w.does (.cancel m)).loop.tasks[m]? = some t' ∧ t'.face = (t.patrol, true, false) := by
  have hcalled : (w.loop.callOff m).tasks[m]? = some { t with cancelled := true } := by
    rw [Loop.tasks_callOff, if_pos rfl, ht, Option.map_some]
  obtain ⟨t', ht', hface⟩ := (Loop.like_cancel ht he).task hcalled
  refine ⟨t', ht', hface.trans ?_⟩
  rw [← he]
  rfl

theorem called_off {before after : List Deed} (h : w.loop.Orderly)
    (ht : w.loop.tasks[m]? = some t) (hface : t.face = (n, true, false))
    (hp : w.Permits (before ++ .turn m :: after)) :
    (w.done (before ++ [.turn m])).notices = [] ∧
      (w.done before).Accords (w.done (before ++ [.turn m])) ∧
      (∃ t, (w.done (before ++ [.turn m])).loop.tasks[m]? = some t ∧
        t.stage = .ended .cancelled) ∧
      .turn m ∉ after := by
  have hended : ∀ {t : Task} {how : TaskEnd}, t.stage = .ended how → t.isEnded = true := by
    intro t how hs
    simp [Task.isEnded, hs]
  induction before generalizing w t with
  | nil =>
    obtain ⟨hn, ha, t', ht', hs⟩ := turn_cancelled ht (congrArg (·.2.1) hface)
    exact ⟨hn, ha, ⟨t', ht', hs⟩, not_turned
      (orderly_does (w := w.quieted) h (fits_quieted.2 hp.1)) hp.2 ht' (hended hs)⟩
  | cons d before ih =>
    have hf : w.quieted.Fits d := fits_quieted.2 hp.1
    have horderly := orderly_does (w := w.quieted) h hf
    by_cases hturn : d = .turn m
    · -- it would have ended, and have one more turn
      subst hturn
      obtain ⟨-, -, t', ht', hs⟩ := turn_cancelled ht (congrArg (·.2.1) hface)
      exact absurd (by simp) (not_turned horderly hp.2 ht' (hended hs))
    · obtain ⟨t', ht', hface'⟩ : ∃ t', (w.quieted.does d).loop.tasks[m]? = some t' ∧
          t'.face = (n, true, false) := by
        by_cases hc : d = .cancel m
        · obtain ⟨t', ht', hface'⟩ := face_cancel (w := w.quieted) ht (congrArg (·.2.2) hface)
          rw [hc]
          exact ⟨t', ht', hface'.trans (by rw [show t.patrol = n from congrArg (·.1) hface])⟩
        · obtain ⟨t', ht', hface'⟩ := face_does (w := w.quieted) h hf ht hturn hc
          exact ⟨t', ht', hface'.trans hface⟩
      exact ih horderly ht' hface' hp.2

theorem plain_of_ne (h : d ≠ .turn m) : d.plain m = d := by
  unfold Deed.plain
  split
  · rw [if_neg (fun hj => h (by rw [hj]))]
  · rfl

theorem Tranquil.tail (h : v.Tranquil m (d :: ds)) :
    (v.quieted.does (d.plain m)).Tranquil m ds where
  kept hm := h.kept (List.mem_cons_of_mem _ hm)
  calm before after hds := h.calm (d :: before) after (by rw [hds]; rfl)

theorem Tranquil.init (h : v.Tranquil m (ds ++ ds')) : v.Tranquil m ds where
  kept hm := h.kept (List.mem_append_left _ hm)
  calm before after hds := h.calm before (after ++ ds') (by rw [hds]; simp)

theorem Tends.done (h : w.Tends v m n p) (hp : w.Permits ds) (ht : v.Tranquil m ds) :
    (w.done ds).Tends (v.plainly m ds) m n p := by
  induction ds generalizing w v with
  | nil => exact h
  | cons d ds ih =>
    refine ih ?_ hp.2 ht.tail
    by_cases hturn : d = .turn m
    · subst hturn
      rw [show (Deed.turn m).plain m = .step .sweep from if_pos rfl]
      exact (h.calm hp.1 (ht.calm [] ds rfl)).1
    · rw [plain_of_ne hturn]
      exact h.other hp.1 hturn fun hc => ht.kept (by simp [hc])

theorem plainly_concat (w : World) (m : Nat) (ds : List Deed) (d : Deed) :
    w.plainly m (ds ++ [d]) = (w.plainly m ds).quieted.does (d.plain m) := by
  simp [plainly, done]

theorem done_concat (w : World) (ds : List Deed) (d : Deed) :
    w.done (ds ++ [d]) = (w.done ds).quieted.does d := by
  simp [done]

theorem Tends.tended (h : w.Tends w m n p) : w.Tended m p where
  alike {ds} hp ht := by
    obtain ⟨halike, -, ⟨t, htask, hface⟩, -⟩ := h.done hp ht
    exact ⟨halike, t, htask, congrArg (·.2.2) hface, congrArg (·.2.1) hface⟩
  others {ds d} hp ht hd := by
    have halike := (h.done (permits_append.1 hp).1 ht).alike
    rw [done_concat, plainly_concat, plain_of_ne hd]
    exact (halike.does d).2.symm
  rounds {ds} hp ht := by
    have htends := h.done (permits_append.1 hp).1 ht.init
    have hf := (permits_append.1 hp).2.1
    obtain ⟨t, htask, hd, -⟩ := turn_of_fits htends.orderly hf
    obtain ⟨-, hshown, hasleep⟩ := htends.calm hf (ht.calm ds [] rfl)
    rw [done_concat]
    exact ⟨⟨t, htask, hd⟩, hshown, hasleep⟩
  fatal {ds ds' f} hp ht hr hf := by
    have htends := h.done (permits_append.1 hp).1 ht
    obtain ⟨hfits, hrest⟩ := (permits_append.1 hp).2
    obtain ⟨hshown, haccords, t, htask, hs⟩ := htends.fatal hr hf
    have horderly := orderly_does (w := (w.done ds).quieted) htends.orderly (fits_quieted.2 hfits)
    rw [done_concat]
    exact ⟨hshown, haccords, ⟨t, htask, hs⟩,
      not_turned horderly hrest htask (by simp [Task.isEnded, hs])⟩
  cancelled {ds before after} hp ht := by
    have htends := h.done (permits_append.1 hp).1 ht
    obtain ⟨hfits, hrest⟩ := (permits_append.1 hp).2
    obtain ⟨t, htask, hface⟩ := htends.task
    obtain ⟨t', htask', hface'⟩ :=
      face_cancel (w := (w.done ds).quieted) htask (congrArg (·.2.2) hface)
    have horderly := orderly_does (w := (w.done ds).quieted) htends.orderly (fits_quieted.2 hfits)
    have hlast := called_off horderly htask' hface' hrest
    rw [done_append, done_append]
    exact hlast

end World

end Lapse
