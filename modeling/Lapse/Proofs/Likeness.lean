import Lapse.Proofs.Stopping

namespace Lapse

def Task.face (t : Task) : Nat × Bool × Bool := (t.patrol, t.cancelled, t.isEnded)

namespace Loop

def faces (l : Loop) : List (Nat × Bool × Bool) := l.tasks.map Task.face

structure Like (l l' : Loop) : Prop where
  patrols : l'.patrols = l.patrols
  faces : l'.faces = l.faces

inductive Change
  | add (p : Patrol)
  | start (n : Nat)
  | know (n : Nat) (task : Option Nat)
  | shift
  | await (m : Nat)
  | rise (m : Nat)
  | sleep (m : Nat) (id : String)
  | finish (m : Nat) (how : TaskEnd)
  | rouse (m : Nat)
  | cancel (m : Nat)

def change (l : Loop) : Change → Loop
  | .add p => l.add p
  | .start n => l.start n
  | .know n task => l.know n task
  | .shift => { l with queue := l.queue.tail }
  | .await m => { l with awaited := some m }
  | .rise m => l.rise m
  | .sleep m id => l.sleep m id
  | .finish m how => l.finish m how
  | .rouse m => (l.setStage m .woken).enqueue (.task m)
  | .cancel m => l.cancel m

/-- The relation holds only of loops that are alike, and no change ends it. -/
structure Blind (K : Loop → Loop → Prop) : Prop where
  like : ∀ {l l' : Loop}, K l l' → l.Like l'
  change : ∀ {l l' : Loop}, K l l' → ∀ c, K (l.change c) (l'.change c)

variable {l l' : Loop} {j m n : Nat} {t : Task} {stage : Stage} {how : TaskEnd}

theorem getElem?_faces : l.faces[j]? = (l.tasks[j]?).map Task.face := List.getElem?_map

theorem Like.refl : l.Like l := ⟨rfl, rfl⟩

theorem Like.symm (h : l.Like l') : l'.Like l := ⟨h.patrols.symm, h.faces.symm⟩

theorem Like.trans {l'' : Loop} (h : l.Like l') (h' : l'.Like l'') : l.Like l'' :=
  ⟨h'.patrols.trans h.patrols, h'.faces.trans h.faces⟩

theorem Like.of_getElem? (hp : l'.patrols = l.patrols)
    (hf : ∀ j : Nat, (l'.tasks[j]?).map Task.face = (l.tasks[j]?).map Task.face) : l.Like l' :=
  ⟨hp, List.ext_getElem? fun j => by rw [getElem?_faces, getElem?_faces, hf]⟩

theorem Like.getElem? (h : l.Like l') (j : Nat) :
    (l'.tasks[j]?).map Task.face = (l.tasks[j]?).map Task.face := by
  rw [← getElem?_faces, ← getElem?_faces, h.faces]

theorem Like.length (h : l.Like l') : l'.tasks.length = l.tasks.length := by
  simpa [Loop.faces] using congrArg List.length h.faces

theorem Like.task (h : l.Like l') (ht : l.tasks[m]? = some t) :
    ∃ t', l'.tasks[m]? = some t' ∧ t'.face = t.face := by
  have := h.getElem? m
  rwa [ht, Option.map_some, Option.map_eq_some_iff] at this

theorem Like.no_task (h : l.Like l') (ht : l.tasks[m]? = none) : l'.tasks[m]? = none := by
  have := h.getElem? m
  rwa [ht, Option.map_none, Option.map_eq_none_iff] at this

theorem Like.isRunning (h : l.Like l') : l'.isRunning n = l.isRunning n := by
  unfold Loop.isRunning
  rw [h.patrols]
  cases l.patrols[n]?.bind (·.task) with
  | none => rfl
  | some m =>
    simp only [Option.bind_some]
    cases ht : l.tasks[m]? with
    | none => rw [h.no_task ht]
    | some t =>
      obtain ⟨t', ht', hf⟩ := h.task ht
      rw [ht']
      exact congrArg (fun f => !f.2.2) hf

theorem Like.number? (h : l.Like l') (id : String) : l'.number? id = l.number? id := by
  rw [Loop.number?, Loop.number?, h.patrols]

theorem Like.add (h : l.Like l') (p : Patrol) : (l.add p).Like (l'.add p) where
  patrols := by rw [Loop.add, Loop.add, h.patrols]
  faces := h.faces

theorem Like.know (h : l.Like l') (task : Option Nat) : (l.know n task).Like (l'.know n task) where
  patrols := by
    unfold Loop.know
    rw [h.patrols]
    cases l.patrols[n]? with
    | none => exact h.patrols
    | some p => rfl
  faces := by simpa [Loop.faces] using h.faces

theorem Like.start (h : l.Like l') : (l.start n).Like (l'.start n) := by
  cases hr : l.isRunning n with
  | true => rwa [start_of_isRunning hr, start_of_isRunning (h.isRunning.trans hr)]
  | false =>
    rw [start_eq hr, start_eq (h.isRunning.trans hr), h.length]
    have hadded : ({ l with tasks := l.tasks ++ [(⟨n, .fresh, false⟩ : Task)] } : Loop).Like
        { l' with tasks := l'.tasks ++ [(⟨n, .fresh, false⟩ : Task)] } :=
      ⟨h.patrols, by simpa [Loop.faces] using h.faces⟩
    have hknown := hadded.know (n := n) (some l.tasks.length)
    exact ⟨hknown.patrols, hknown.faces⟩

theorem Like.setStage (h : l.Like l') : (l.setStage m stage).Like (l'.setStage m stage) := by
  refine .of_getElem? (by simpa using h.patrols) fun j => ?_
  rw [tasks_setStage, tasks_setStage]
  by_cases hj : j = m
  · rw [if_pos hj, if_pos hj]
    cases ht : l.tasks[m]? with
    | none => rw [h.no_task ht]
    | some t =>
      obtain ⟨t', ht', hf⟩ := h.task ht
      simp only [Task.face, Prod.mk.injEq] at hf
      simp [ht', Task.face, hf.1, hf.2.1, Task.isEnded]
  · rw [if_neg hj, if_neg hj]
    exact h.getElem? j

theorem Like.callOff (h : l.Like l') : (l.callOff m).Like (l'.callOff m) := by
  refine .of_getElem? (by simpa using h.patrols) fun j => ?_
  rw [tasks_callOff, tasks_callOff]
  by_cases hj : j = m
  · rw [if_pos hj, if_pos hj]
    cases ht : l.tasks[m]? with
    | none => rw [h.no_task ht]
    | some t =>
      obtain ⟨t', ht', hf⟩ := h.task ht
      simp only [Task.face, Prod.mk.injEq, Task.isEnded] at hf
      simp [ht', Task.face, hf.1, hf.2.2, Task.isEnded]
  · rw [if_neg hj, if_neg hj]
    exact h.getElem? j

theorem like_setStage (stage : Stage) (ht : l.tasks[m]? = some t)
    (he : ({ t with stage := stage } : Task).isEnded = t.isEnded) :
    l.Like (l.setStage m stage) := by
  refine .of_getElem? patrols_setStage fun j => ?_
  rw [tasks_setStage_of ht]
  by_cases hj : j = m
  · rw [if_pos hj, hj, ht]
    simp only [Option.map_some, Task.face, he]
  · rw [if_neg hj]

theorem like_cancel (ht : l.tasks[m]? = some t) (he : t.isEnded = false) :
    (l.callOff m).Like (l.cancel m) := by
  obtain ⟨patrol, stage, cancelled⟩ := t
  have hcalled : (l.callOff m).tasks[m]? = some ⟨patrol, stage, true⟩ := by
    rw [tasks_callOff, if_pos rfl, ht, Option.map_some]
  cases stage with
  | ended how => cases he
  | fresh | woken =>
    simp only [cancel, ht]
    exact .refl
  | asleep =>
    simp only [cancel, ht]
    have h := like_setStage .woken hcalled rfl
    exact ⟨h.patrols, h.faces⟩

theorem Like.cancel (h : l.Like l') : (l.cancel m).Like (l'.cancel m) := by
  cases ht : l.tasks[m]? with
  | none => simpa [Loop.cancel, ht, h.no_task ht] using h
  | some t =>
    obtain ⟨t', ht', hf⟩ := h.task ht
    have he : t'.isEnded = t.isEnded := congrArg (·.2.2) hf
    cases hte : t.isEnded with
    | true => rwa [cancel_of_ended ht hte, cancel_of_ended ht' (he.trans hte)]
    | false =>
      exact ((like_cancel ht hte).symm.trans h.callOff).trans (like_cancel ht' (he.trans hte))

theorem like_rise : l.Like (l.rise m) := ⟨patrols_rise, by simp [Loop.faces]⟩

theorem Like.finish (h : l.Like l') : (l.finish m how).Like (l'.finish m how) where
  patrols := by rw [patrols_finish, patrols_finish, h.patrols]
  faces := by
    rw [Loop.faces, Loop.faces, tasks_finish, tasks_finish]
    exact h.setStage.faces

theorem Blind.eq : Blind Eq where
  like h := h ▸ .refl
  change h c := congrArg (·.change c) h

theorem Blind.alike : Blind Like where
  like h := h
  change h c := by
    cases c with
    | add p => exact h.add p
    | start n => exact h.start
    | know n task => exact h.know task
    | shift => exact ⟨h.patrols, h.faces⟩
    | await m => exact ⟨h.patrols, h.faces⟩
    | rise m => exact (like_rise.symm.trans h).trans like_rise
    | sleep m id => exact ⟨h.setStage.patrols, h.setStage.faces⟩
    | finish m how => exact h.finish
    | rouse m => exact ⟨h.setStage.patrols, h.setStage.faces⟩
    | cancel m => exact h.cancel

end Loop

namespace World

def beside (w : World) (l : Loop) (ns : List Notice) : World :=
  { w with loop := l, notices := w.notices ++ ns }

/-- The second world is the first one, but for what the relation leaves open of the loop and what
was shown before. -/
def Twin (K : Loop → Loop → Prop) (ns : List Notice) (w v : World) : Prop :=
  ∃ l, K w.loop l ∧ v = w.beside l ns

def Twins (K : Loop → Loop → Prop) (ns : List Notice) : Option World → Option World → Prop
  | some w, some v => Twin K ns w v
  | none, none => True
  | _, _ => False

variable {K : Loop → Loop → Prop} {w v : World} {l : Loop} {ns : List Notice} {a : Actor}
  {s : Step} {below : List Activity}

theorem setActor_beside : (w.beside l ns).setActor a = (w.setActor a).beside l ns := rfl

theorem absorb_beside (m : Machine) (events : List Event) :
    (w.beside l ns).absorb m events = (w.absorb m events).beside l ns := by
  simp [absorb, beside]

theorem deliver_beside (r : Result) :
    (w.beside l ns).deliver a s r below = (w.deliver a s r below).beside l ns := by
  unfold deliver
  split
  · rfl
  · rfl

theorem assign_beside (t : Tid) (activities : List Activity) :
    (w.beside l ns).assign t activities = (w.assign t activities).beside l ns := by
  unfold assign
  have h : (w.beside l ns).actor? t = w.actor? t := rfl
  rw [h]
  split
  · rfl
  · rfl

theorem spawn_beside :
    (w.beside l ns).spawn s = ((w.spawn s).1.beside l ns, (w.spawn s).2) :=
  Prod.ext (assign_beside _ _) rfl

theorem spawnAll_beside (steps : List Step) :
    (w.beside l ns).spawnAll steps = ((w.spawnAll steps).1.beside l ns, (w.spawnAll steps).2) := by
  induction steps generalizing w with
  | nil => rfl
  | cons s steps ih =>
    unfold spawnAll
    simp only [spawn_beside, ih]

theorem openGate_beside (gate : String) :
    (w.beside l ns).openGate gate = (w.openGate gate).beside l ns := by
  refine List.foldl_hom (World.beside · l ns) fun w a => ?_
  split
  · split
    · exact deliver_beside _
    · rfl
  · rfl

theorem defer_beside :
    (w.beside l ns).defer a s below = (w.defer a s below).beside l ns := rfl

theorem resume?_beside :
    (w.beside l ns).resume? = w.resume?.map (·.beside l ns) := by
  unfold resume?
  have h : (w.beside l ns).deferring = w.deferring := rfl
  rw [h]
  cases w.deferring with
  | nil => rfl
  | cons t ts =>
    have h' : ({ w.beside l ns with deferring := ts } : World).actor? t =
        ({ w with deferring := ts } : World).actor? t := rfl
    simp only [h']
    split
    · rfl
    · split
      · exact congrArg some (deliver_beside (w := { w with deferring := ts }) _)
      · rfl

theorem answer_beside (ask : Ask) :
    (w.beside l ns).answer s ask = ((w.answer s ask).1.beside l ns, (w.answer s ask).2) := by
  unfold answer
  split
  · split
    · rfl
    · rfl
  · rfl
  · rfl

theorem close_beside (r : Reply) :
    (w.beside l ns).close a r below = (w.close a r below).map (·.beside l ns) := by
  unfold close
  split
  · have h : (w.beside l ns).machine = w.machine := rfl
    simp only [h, absorb_beside, setActor_beside, Option.map_map]
    rfl
  · rfl

theorem proceed_beside (call : Nat) :
    (w.beside l ns).proceed a s call below = (w.proceed a s call below).map (·.beside l ns) := by
  unfold proceed
  have h : (w.beside l ns).machine = w.machine := rfl
  rw [h]
  split
  · simp only [answer_beside, setActor_beside, Option.map_some]
  · simp only [absorb_beside, Option.map_map]
    congr 1
    funext ⟨m, events⟩
    simp only [Function.comp_apply]
    split
    · rfl
    · exact deliver_beside _

theorem Twin.of_beside (h : K w.loop l) : Twin K ns w (w.beside l ns) := ⟨l, h, rfl⟩

theorem Twin.startPatrol (hK : Loop.Blind K) (h : Twin K ns w v) (n : Nat) :
    Twin K ns (w.startPatrol n) (v.startPatrol n) := by
  obtain ⟨l, hl, rfl⟩ := h
  have hlike := hK.like hl
  unfold World.startPatrol
  have hp : (w.beside l ns).loop.patrols = w.loop.patrols := hlike.patrols
  have hr : (w.beside l ns).loop.isRunning n = w.loop.isRunning n := hlike.isRunning
  rw [hp, hr]
  split
  · exact ⟨l.start n, hK.change hl (.start n), rfl⟩
  · exact .of_beside hl

theorem Twin.atOnce? (hK : Loop.Blind K) (h : Twin K ns w v) (s : Step) :
    (w.atOnce? s = none ∧ v.atOnce? s = none) ∨
      ∃ w' v' r, w.atOnce? s = some (w', r) ∧ v.atOnce? s = some (v', r) ∧ Twin K ns w' v' := by
  have hstart := h.startPatrol hK
  obtain ⟨l, hl, rfl⟩ := h
  have hlike := hK.like hl
  have hsame : Twin K ns w (w.beside l ns) := .of_beside hl
  cases s with
  | advance ns' => exact .inr ⟨_, _, _, rfl, rfl, l, hl, rfl⟩
  | newPatrol id interval =>
    simp only [World.atOnce?]
    have hsettings : (w.beside l ns).settings = w.settings := rfl
    rw [hsettings]
    split
    · exact .inr ⟨_, _, _, rfl, rfl, hsame⟩
    · exact .inr ⟨_, _, _, rfl, rfl, _, hK.change hl (.add _), rfl⟩
  | startPatrol id =>
    simp only [World.atOnce?]
    have hn : (w.beside l ns).loop.number? id = w.loop.number? id := hlike.number? id
    rw [hn]
    cases w.loop.number? id with
    | none => exact .inr ⟨_, _, _, rfl, rfl, hsame⟩
    | some n => exact .inr ⟨_, _, _, rfl, rfl, hstart n⟩
  | isRunning id =>
    have hn : (w.beside l ns).loop.number? id = w.loop.number? id := hlike.number? id
    have hr : (w.beside l ns).loop.isRunning = w.loop.isRunning :=
      funext fun n => hlike.isRunning
    refine .inr ⟨_, _, _, rfl, ?_, hsame⟩
    simp only [World.atOnce?]
    rw [hn, hr]
  | askStop id => exact .inr ⟨_, _, _, rfl, rfl, l, hl, rfl⟩
  | join id => exact .inr ⟨_, _, _, rfl, rfl, hsame⟩
  | _ => exact .inl ⟨rfl, rfl⟩

theorem Twins.of_map {x : Option World} (h : ∀ {w' : World}, x = some w' → w'.loop = w.loop)
    (hl : K w.loop l) : Twins K ns x (x.map (·.beside l ns)) := by
  cases x with
  | none => trivial
  | some w' => exact .of_beside (by rwa [h rfl])

theorem Twin.attempt (a : Actor) (s : Step) (below : List Activity) (ns : List Notice)
    (hK : Loop.Blind K) (hl : K w.loop l) : Twins K ns
    (match w.atOnce? s, s.op? with
      | some (w, r), _ => some (w.deliver a s r below)
      | none, none => none
      | none, some op =>
        (w.machine.call? a.tid op).map fun (m, events) =>
          (w.absorb m events).setActor
            { a with activities := .calling s w.machine.shared.fresh :: below })
    (match (w.beside l ns).atOnce? s, s.op? with
      | some (w, r), _ => some (w.deliver a s r below)
      | none, none => none
      | none, some op =>
        ((w.beside l ns).machine.call? a.tid op).map fun (m, events) =>
          ((w.beside l ns).absorb m events).setActor
            { a with activities :=
              .calling s (w.beside l ns).machine.shared.fresh :: below }) := by
  obtain ⟨hw, hv⟩ | ⟨w', v', r, hw, hv, l', hl', rfl⟩ := Twin.atOnce? hK (.of_beside hl) s
  · rw [hw, hv]
    cases s.op? with
    | none => trivial
    | some op =>
      have hm : (w.beside l ns).machine = w.machine := rfl
      simp only [hm, absorb_beside, setActor_beside]
      cases w.machine.call? a.tid op with
      | none => trivial
      | some r => exact .of_beside hl
  · rw [hw, hv]
    simp only [deliver_beside]
    exact .of_beside (by rwa [loop_deliver])

theorem Twin.begin (hK : Loop.Blind K) (h : Twin K ns w v) :
    Twins K ns (w.begin a s below) (v.begin a s below) := by
  obtain ⟨l, hl, rfl⟩ := h
  have hop := Twin.attempt a s below ns hK hl
  unfold World.begin
  cases s with
  | gate g => exact .of_beside hl
  | spawn id first =>
    simp only [spawn_beside]
    exact .of_beside (by rwa [loop_defer, loop_spawn])
  | release g =>
    simp only [openGate_beside, defer_beside]
    exact .of_beside (by rwa [loop_defer, loop_openGate])
  | _ => exact hop

theorem Twin.move? (hK : Loop.Blind K) (h : Twin K ns w v) :
    Twins K ns (w.move? a) (v.move? a) := by
  have hbegin : ∀ s below, Twins K ns (w.begin a s below) (v.begin a s below) :=
    fun _ _ => h.begin hK
  obtain ⟨l, hl, rfl⟩ := h
  unfold World.move?
  split
  · trivial
  · exact hbegin _ _
  · rw [proceed_beside]
    exact .of_map loop_proceed hl
  · trivial
  · trivial
  · exact .of_beside hl
  · exact .of_beside hl
  · rw [close_beside]
    exact .of_map loop_close hl
  · exact .of_beside hl

theorem Twins.orElse {x x' y y' : Option World} (h : Twins K ns x y) (h' : Twins K ns x' y') :
    Twins K ns (x <|> x') (y <|> y') := by
  match x, y with
  | some _, some _ => exact h
  | none, none => exact h'
  | some _, none => exact h.elim
  | none, some _ => exact h.elim

theorem Twin.resume? (h : Twin K ns w v) : Twins K ns w.resume? v.resume? := by
  obtain ⟨l, hl, rfl⟩ := h
  rw [resume?_beside]
  exact .of_map loop_resume? hl

theorem Twin.next? (hK : Loop.Blind K) (h : Twin K ns w v) (actors : List Actor) :
    Twins K ns (actors.findSome? w.move?) (actors.findSome? v.move?) := by
  induction actors with
  | nil => trivial
  | cons a actors ih =>
    have hcons : ∀ u : World, (a :: actors).findSome? u.move? =
        (u.move? a <|> actors.findSome? u.move?) := by
      intro u
      rw [List.findSome?_cons]
      cases u.move? a with
      | none => rfl
      | some u' => rfl
    rw [hcons, hcons]
    exact (h.move? hK).orElse ih

theorem Twin.settle (hK : Loop.Blind K) (h : Twin K ns w v) (fuel : Nat) :
    Twin K ns (w.settle fuel) (v.settle fuel) := by
  induction fuel generalizing w v with
  | zero => exact h
  | succ fuel ih =>
    have hactors : v.actors = w.actors := by
      obtain ⟨l, -, rfl⟩ := h
      rfl
    have hnext := (h.next? hK w.actors).orElse h.resume?
    unfold World.settle
    rw [hactors]
    cases hw : w.actors.findSome? w.move? <|> w.resume? with
    | none =>
      cases hv : w.actors.findSome? v.move? <|> v.resume? with
      | none => exact h
      | some v' =>
        rw [hw, hv] at hnext
        exact hnext.elim
    | some w' =>
      cases hv : w.actors.findSome? v.move? <|> v.resume? with
      | none =>
        rw [hw, hv] at hnext
        exact hnext.elim
      | some v' =>
        rw [hw, hv] at hnext
        exact ih hnext

theorem Twin.resultOf (h : Twin K ns w v) (t : Tid) : v.resultOf t = w.resultOf t := by
  obtain ⟨l, -, rfl⟩ := h
  rfl

theorem Twin.perform (hK : Loop.Blind K) (h : Twin K ns w v) (activities : List Activity) :
    Twin K ns (w.perform activities).1 (v.perform activities).1 ∧
      (v.perform activities).2 = (w.perform activities).2 := by
  have h' : Twin K ns (w.assign mainThread activities) (v.assign mainThread activities) := by
    obtain ⟨l, hl, rfl⟩ := h
    rw [assign_beside]
    exact .of_beside (by rwa [loop_assign])
  have hs := h'.settle hK patience
  exact ⟨hs, hs.resultOf mainThread⟩

end World

end Lapse
