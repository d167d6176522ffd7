import Lapse.Proofs.Coherence
import Lapse.Proofs.Likeness

namespace Lapse

def Out.result : Out → Result
  | .one r => r
  | .many _ => .ok .null

def plainSteps (lines : List Line) : List Act := lines.map fun line => .step line.1

def plainRound (lines : List Line) : List Act := .step .sweep :: plainSteps lines

def failures : Result → List Notice
  | .ok _ => []
  | .error f => [.logged (.patrolFailed f)]

def Step.nested (s : Step) (row : Row) : List Notice :=
  row.notices ++ [.nested s row.out.result]

def nested : List Line → List Row → List Notice
  | (s, _) :: lines, row :: rows => s.nested row ++ nested lines rows
  | _, _ => []

def Patrol.roundShow (p : Patrol) (lines : List Line) : List Row → List Notice
  | [] => []
  | sweep :: rows => sweep.notices ++ failures sweep.out.result ++
      .slept p.id p.interval :: nested lines rows

namespace World

def noting (w : World) (ns : List Notice) : World := { w with notices := ns }

def plain (w : World) (sleeps : List (List Line)) : World := w.after (sleeps.flatMap plainRound)

def shows (w : World) (p : Patrol) : List (List Line) → List Notice
  | [] => []
  | lines :: sleeps =>
    p.roundShow lines (w.playAll (plainRound lines)) ++ (w.plain [lines]).shows p sleeps

def heed (w : World) (p : Patrol) (stop : StopAt) : World :=
  let stopping := w.stopping.filter (· != p.id)
  { w with stopping := match stop with
    | .atOnce => p.id :: stopping
    | _ => stopping }

def Unset (w : World) (p : Patrol) (stop : StopAt) : Prop := stop = .never ∨ p.id ∉ w.stopping

def Calm (w : World) : Prop :=
  ∀ f, (w.play (.step .sweep)).2.out.result = .error f → f.isOrdinary = true

def Steady (w : World) (p : Patrol) (stop : StopAt) (past : List (List Line)) : Prop :=
  ∀ before lines after, past = before ++ lines :: after →
    (w.plain before).Unset p stop ∧ (w.plain before).Calm

/-- How a patrol in place ends when these rounds are still to come: with which world, what it shows
at last, and what it comes to. -/
inductive Exits (w : World) (p : Patrol) (stop : StopAt) :
    List (List Line) → World → List Notice → Result → Prop
  | set {later : List (List Line)} : stop ≠ .never → (later = [] ∨ p.id ∈ w.stopping) →
    Exits w p stop later w [] (.ok .null)
  | cancelled : stop = .never → Exits w p stop [] w [] (.error .cancelled)
  | fatal {later : List (List Line)} {f : Fault} : later ≠ [] → w.Unset p stop →
    (w.play (.step .sweep)).2.out.result = .error f → f.isOrdinary = false →
    Exits w p stop later (w.play (.step .sweep)).1 (w.play (.step .sweep)).2.notices (.error f)
  | interrupted {before after : List Line} {s : Step} {later : List (List Line)} {f : Fault} :
    w.Unset p stop → w.Calm →
    ((w.after (plainRound before)).play (.step s)).2.out.result = .error f →
    Exits w p stop ((before ++ (s, true) :: after) :: later)
      (w.after (plainRound (before ++ [(s, true)])))
      (p.roundShow (before ++ [(s, true)]) (w.playAll (plainRound (before ++ [(s, true)]))))
      (.error f)

/-- Some of the rounds are taken plainly, and then the patrol ends: with this world and result, and
with what the rounds show before what was shown. -/
def Unrolls (w : World) (p : Patrol) (stop : StopAt) (sleeps : List (List Line))
    (ns : List Notice) (out : World × Result) : Prop :=
  ∃ past later v shown r, sleeps = past ++ later ∧ w.Steady p stop past ∧
    (w.plain past).Exits p stop later v shown r ∧
    out = (v.noting ((w.shows p past ++ shown).reverse ++ ns), r)

variable {w : World} {p : Patrol} {stop : StopAt} {ns : List Notice} {lines : List Line}
  {past sleeps : List (List Line)} {f : Fault} {s : Step}

theorem perform_noting (w : World) (activities : List Activity) (ns : List Notice) :
    (w.noting ns).perform activities =
      ((w.quieted.perform activities).1.noting
        ((w.quieted.perform activities).1.notices ++ ns), (w.quieted.perform activities).2) := by
  have h : Twin Eq ns w.quieted (w.noting ns) := ⟨w.loop, rfl, rfl⟩
  obtain ⟨⟨l, rfl, hw⟩, hr⟩ := h.perform .eq activities
  exact Prod.ext hw hr

theorem perform_step (s : Step) : (w.noting ns).perform [.begin s] =
    ((w.play (.step s)).1.noting ((w.play (.step s)).2.notices.reverse ++ ns),
      (w.play (.step s)).2.out.result) := by
  rw [perform_noting, play, act]
  simp [Out.result, quieted]

theorem round_of_calm (h : w.Calm) (ns : List Notice) : (w.noting ns).round =
    ((w.play (.step .sweep)).1.noting
      (((w.play (.step .sweep)).2.notices ++ failures (w.play (.step .sweep)).2.out.result).reverse
        ++ ns), none) := by
  unfold round
  rw [perform_step]
  cases hr : (w.play (.step .sweep)).2.out.result with
  | ok v => simp [failures]
  | error f => simp [failures, h f hr, notice, noting]

theorem round_of_fatal (hr : (w.play (.step .sweep)).2.out.result = .error f)
    (hf : f.isOrdinary = false) (ns : List Notice) : (w.noting ns).round =
    ((w.play (.step .sweep)).1.noting ((w.play (.step .sweep)).2.notices.reverse ++ ns),
      some f) := by
  unfold round
  rw [perform_step, hr]
  simp [hf]

theorem after_append (acts acts' : List Act) :
    w.after (acts ++ acts') = (w.after acts).after acts' := List.foldl_append

theorem plain_cons (lines : List Line) (sleeps : List (List Line)) :
    w.plain (lines :: sleeps) = (w.plain [lines]).plain sleeps := by
  simp [plain, after_append]

theorem Unrolls.cons {out : World × Result} (hu : w.Unset p stop) (hc : w.Calm)
    (h : (w.plain [lines]).Unrolls p stop sleeps ((w.shows p [lines]).reverse ++ ns) out) :
    w.Unrolls p stop (lines :: sleeps) ns out := by
  obtain ⟨past, later, v, shown, r, rfl, hsteady, hexits, rfl⟩ := h
  refine ⟨lines :: past, later, v, shown, r, rfl, ?_, by rwa [plain_cons], by simp [shows]⟩
  intro before lines' after hpast
  cases before with
  | nil => exact ⟨hu, hc⟩
  | cons lines₁ before =>
    obtain ⟨rfl, hrest⟩ := List.cons.inj hpast
    rw [plain_cons]
    exact hsteady before lines' after hrest

def sweepShow (w : World) (p : Patrol) : List Notice :=
  (w.play (.step .sweep)).2.notices ++ failures (w.play (.step .sweep)).2.out.result ++
    [.slept p.id p.interval]

end World

end Lapse
