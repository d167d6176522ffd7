import Lapse.Proofs.Chart
import Lapse.Proofs.Fetching

namespace Lapse

/-- Since the call began there was an instant at which the abstract map was so; `q` came before it
and `rest` after. -/
inductive Instant (es : List Timed) (c : Nat) (P : List Timed → Chart → List Timed → Prop) : Prop
  | intro {q rest : List Timed} {b : Timed} {chart : Chart} : es = q ++ rest → b ∈ q →
    b.call = c → Chart.empty.run? (actions (q.map (·.what))) = some chart → P q chart rest →
    Instant es c P

theorem Instant.append {es es' : List Timed} {c : Nat}
    {P Q : List Timed → Chart → List Timed → Prop} (h : Instant es c P)
    (hpq : ∀ {q chart rest}, P q chart rest → Q q chart (rest ++ es')) :
    Instant (es ++ es') c Q := by
  obtain ⟨rfl, hb, hc, hrun, hp⟩ := h
  exact ⟨List.append_assoc .., hb, hc, hrun, hpq hp⟩

inductive Erases (c : Nat) (key : Value) (q : List Timed) (chart : Chart) (rest : List Timed) :
    Prop
  | present {k : Key} {r : Record} {d : Timed} {rest' : List Timed} : Quiet (trail q c) →
    key.toKey c = .ok k → chart.has k = true → rest = d :: rest' → d.call = c →
    d.what = .deleted k r → Quiet (trail rest' c) → Erases c key q chart rest
  | absent : Quiet (trail q c) → (∀ k, key.toKey c = .ok k → chart.has k = false) →
    Quiet (trail rest c) → Erases c key q chart rest

theorem Erases.append {c : Nat} {key : Value} {q : List Timed} {chart : Chart}
    {rest es' : List Timed} (h : Erases c key q chart rest) (hq : Quiet (trail es' c)) :
    Erases c key q chart (rest ++ es') := by
  cases h with
  | present hl hk hc hrest hd hw hl' =>
    subst hrest
    refine .present hl hk hc List.cons_append hd hw ?_
    rw [trail_append]
    exact hl'.append hq
  | absent hl hk hl' =>
    refine .absent hl hk ?_
    rw [trail_append]
    exact hl'.append hq

def Erase.Tale (c : Nat) (key : Value) (es : List Timed) : Erase → Prop
  | pop key' => key' = key ∧ Quiet (trail es c)
  | _ => Instant es c (Erases c key)

namespace Point

def Erases (c : Nat) (key : Value) (es : List Timed) : Point → Prop
  | .erase e => e.Tale c key es
  | .done _ => Instant es c (Lapse.Erases c key)
  | _ => True

def Views (view : Chart → Answer) (c : Nat) (es : List Timed) : Point → Prop
  | .done o => Instant es c fun _ chart _ => o = .ok (view chart)
  | _ => True

end Point

namespace Machine

variable {policy : Policy} {m : Machine} {es es' : List Timed} {t : Tid} {c : Nat} {p : Point}

theorem Account.instant (ha : m.Account policy es) {b : Timed} (hb : b ∈ es) (hc : b.call = c)
    {P : List Timed → Chart → List Timed → Prop} (hp : P es m.shared.store.chart es') :
    Instant (es ++ es') c P :=
  ⟨rfl, hb, hc, by simpa using ha.replays.acts .empty, hp⟩

end Machine

theorem Erase.Goes.tale {policy : Policy} {m : Machine} {es : List Timed} {t : Tid} {c : Nat}
    {key : Value} {e : Erase} {hs : List Happening} {s : Shared} {course : Course Erase}
    (h : e.Goes m.shared c hs s course) (ha : m.Account policy es) {b : Timed} (hb : b ∈ es)
    (hc : b.call = c) (ht : e.Tale c key es) :
    (course.map .erase).next.Erases c key (es ++ m.shared.tell t c hs) := by
  have keep : ∀ {hs}, (∀ x ∈ hs, x.touched? = none) → Instant es c (Erases c key) →
      Instant (es ++ m.shared.tell t c hs) c (Erases c key) := by
    intro hs hq hi
    apply hi.append
    intro q chart rest he
    apply he.append
    rw [trail_tell]
    exact .tell hq
  have miss : (∀ k, key.toKey c = .ok k → m.shared.store.contains k = false) →
      Quiet (trail es c) → Instant (es ++ m.shared.tell t c []) c (Erases c key) := by
    intro hk hl
    refine ha.instant hb hc (.absent hl ?_ ?_)
    · simpa using hk
    · rw [trail_tell]
      exact .tell (by simp)
  cases h with
  | empty hemp =>
    obtain ⟨rfl, hl⟩ := ht
    refine miss ?_ hl
    intro k _
    have : m.shared.store.entries = [] := by simpa [Store.isEmpty] using hemp
    simp [Store.contains, this]
  | unkeyed _ hk =>
    obtain ⟨rfl, hl⟩ := ht
    exact miss (fun k hk' => by simp [hk] at hk') hl
  | missed hk hr =>
    obtain ⟨rfl, hl⟩ := ht
    refine miss ?_ hl
    intro k' hk'
    cases hk.symm.trans hk'
    exact Store.find?_eq_none_iff.1 hr
  | popped hk hr =>
    obtain ⟨rfl, hl⟩ := ht
    refine ha.instant hb hc (.present hl hk ?_ rfl rfl rfl ?_)
    · rw [Store.has_chart]
      exact Store.contains_of_find? hr
    · simp [trail, Quiet]
  | dropped | sweeps | finished => exact keep (by simp) ht
  | disposes | disposed | undisposed => exact keep (by simp [Happening.touched?]) ht

namespace Machine

variable {policy : Policy} {es : List Timed} {t : Tid} {c : Nat} {p : Point}

theorem Story.erases {key : Value} (h : Story policy t c (.erase key) es p) :
    p.Erases c key es := by
  induction h with
  | @call m es ha hc =>
    subst hc
    refine ⟨rfl, ?_⟩
    rw [trail_append, ha.trail_fresh, trail_tell]
    exact .tell (by simp [Happening.touched?])
  | @turn m es p hs s course h ha hl hp ih =>
    have hop := h.admits
    obtain ⟨b, hb, hc, -⟩ := h.mem_called
    cases hp with
    | erase he => exact he.tale ha hb hc ih
    | _ => cases hop
  | @fail es p f h hw ih =>
    have hop := h.admits
    cases p with
    | erase e =>
      cases e with
      | finish => exact ih
      | _ => cases hw
    | fetch => cases hop
    | _ => cases hw
  | @others es es' p _ ho ih =>
    have keep : Instant es c (Erases c key) → Instant (es ++ es') c (Erases c key) := by
      intro hi
      apply hi.append
      intro q chart rest he
      apply he.append
      rw [trail_eq_nil ho]
      simp [Quiet]
    cases p with
    | erase e =>
      cases e with
      | pop key' =>
        obtain ⟨hk, hl⟩ := ih
        refine ⟨hk, ?_⟩
        rwa [trail_append, trail_eq_nil ho, List.append_nil]
      | _ => exact keep ih
    | done o => exact keep ih
    | _ => trivial

theorem Story.views {op : Op} {view : Chart → Answer} (h : Story policy t c op es p)
    (hop : op = .size ∧ view = (fun chart => .count chart.size) ∨
      op = .listing ∧ view = fun chart => .listing chart.toList) :
    p.Views view c es := by
  induction h with
  | call =>
    obtain ⟨rfl, -⟩ | ⟨rfl, -⟩ := hop <;> trivial
  | @turn m es p hs s course h ha hl hp ih =>
    have had := h.admits
    obtain ⟨b, hb, hc, -⟩ := h.mem_called
    obtain ⟨rfl, rfl⟩ | ⟨rfl, rfl⟩ := hop
    · cases hp with
      | size => exact ha.instant hb hc (by simp)
      | _ => cases had
    · cases hp with
      | listing => exact ha.instant hb hc (by simp)
      | _ => cases had
  | @fail es p f h hw ih =>
    have had := h.admits
    obtain ⟨rfl, -⟩ | ⟨rfl, -⟩ := hop <;> cases p <;> first | cases hw | cases had
  | @others es es' p _ ho ih =>
    cases p with
    | done o => exact ih.append id
    | _ => trivial

end Machine

end Lapse
