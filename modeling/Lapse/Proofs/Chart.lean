import Lapse.Proofs.Replay

namespace Lapse

structure Slot where
  key : Key
  value : Value
  deadline : Int

structure Chart where
  slots : List Slot

inductive Action
  | insert (k : Key) (v : Value) (deadline : Int)
  | renew (k : Key) (deadline : Int)
  | delete (k : Key)

namespace Chart

def empty : Chart := ⟨[]⟩

def has (c : Chart) (k : Key) : Bool := c.slots.any (·.key.same k)

def size (c : Chart) : Nat := c.slots.length

def toList (c : Chart) : List (Key × Value) := c.slots.map fun s => (s.key, s.value)

/-- An absent key is inserted at the end, as it is spelled; a present one is renewed, in its
place, or deleted. -/
def act? (c : Chart) : Action → Option Chart
  | .insert k v d => if c.has k then none else some ⟨c.slots ++ [⟨k, v, d⟩]⟩
  | .renew k d =>
    if c.has k then
      some ⟨c.slots.map fun s => if s.key.same k then { s with deadline := d } else s⟩
    else none
  | .delete k => if c.has k then some ⟨c.slots.filter fun s => !s.key.same k⟩ else none

def run? (c : Chart) : List Action → Option Chart
  | [] => some c
  | a :: as => (c.act? a).bind fun c' => c'.run? as

@[simp] theorem run?_singleton (c : Chart) (a : Action) : c.run? [a] = c.act? a := by
  simp [run?]

theorem run?_append (c : Chart) (as bs : List Action) :
    c.run? (as ++ bs) = (c.run? as).bind fun c' => c'.run? bs := by
  induction as generalizing c with
  | nil => rfl
  | cons a as ih =>
    simp only [List.cons_append, run?, Option.bind_assoc]
    congr 1
    funext c'
    exact ih c'

end Chart

/-- What happens to the map. To overwrite an entry is to insert where that is impossible. -/
def Happening.action? : Happening → Option Action
  | inserted k r => some (.insert k r.value r.deadline)
  | overwritten k r => some (.insert k r.value r.deadline)
  | renewed k r => some (.renew k r.deadline)
  | deleted k _ => some (.delete k)
  | _ => none

def actions (hs : List Happening) : List Action := hs.filterMap (·.action?)

theorem actions_append (hs hs' : List Happening) :
    actions (hs ++ hs') = actions hs ++ actions hs' :=
  List.filterMap_append

theorem Happening.action?_eq_none {h : Happening} (hn : h.touched? = none) :
    h.action? = none := by
  cases h with
  | inserted => cases hn
  | overwritten => cases hn
  | renewed => cases hn
  | deleted => cases hn
  | _ => rfl

namespace Store

def chart (s : Store) : Chart := ⟨s.entries.map fun e => ⟨e.key, e.record.value, e.record.deadline⟩⟩

@[simp] theorem chart_empty : empty.chart = .empty := rfl

@[simp] theorem has_chart (s : Store) (k : Key) : s.chart.has k = s.contains k := by
  simp [chart, Chart.has, contains, Function.comp_def]

@[simp] theorem size_chart (s : Store) : s.chart.size = s.size := by
  simp [chart, Chart.size, size]

@[simp] theorem toList_chart (s : Store) : s.chart.toList = s.toList := by
  simp [chart, Chart.toList, toList, Function.comp_def]

variable {s s' : Store} {es : List Timed} {k : Key} {r : Record} {h : Happening}

theorem Distinct.record_eq (hs : s.Distinct) {e : Entry} (he : e ∈ s.entries)
    (hk : e.key.same k = true) (hr : s.find? k = some r) : e.record = r := by
  obtain ⟨entries⟩ := s
  simp only [Distinct, keys, find?] at hs hr he
  induction entries with
  | nil => cases he
  | cons x xs ih =>
    rw [List.map_cons, List.pairwise_cons] at hs
    rw [List.find?_cons] at hr
    obtain rfl | hx := List.mem_cons.1 he
    · rw [hk] at hr
      simpa using hr
    · have hne := hs.1 e.key (List.mem_map_of_mem hx)
      rw [Key.same_congr_right hk] at hne
      rw [hne] at hr
      exact ih hs.2 hx hr

theorem Distinct.find?_of_mem {s : Store} {e : Entry} (hs : s.Distinct) (he : e ∈ s.entries) :
    s.find? e.key = some e.record := by
  have hc : s.contains e.key = true :=
    (s.contains_iff e.key).2 ⟨e.key, List.mem_map_of_mem he, Key.same_refl _⟩
  rw [← find?_isSome, Option.isSome_iff_exists] at hc
  obtain ⟨r, hr⟩ := hc
  rw [hr, hs.record_eq he (Key.same_refl _) hr]

theorem Follows.acts (hf : Follows s h s') (hs : s.Distinct) :
    s.chart.run? (actions [h]) = some s'.chart := by
  cases hf with
  | @inserted k r hn =>
    change s.chart.run? [.insert k r.value r.deadline] = _
    rw [Chart.run?_singleton, Chart.act?, has_chart, hn]
    simp [chart, append]
  | @renewed k r r' hr hv =>
    change s.chart.run? [.renew k r'.deadline] = _
    rw [Chart.run?_singleton, Chart.act?, has_chart, contains_of_find? hr, if_pos rfl]
    simp only [chart, replace, List.map_map]
    congr 2
    apply List.map_congr_left
    intro e he
    cases hk : e.key.same k with
    | true => simp [hk, hv, hs.record_eq he hk hr]
    | false => simp [hk]
  | @deleted k r hr =>
    change s.chart.run? [.delete k] = _
    rw [Chart.run?_singleton, Chart.act?, has_chart, contains_of_find? hr, if_pos rfl]
    simp [chart, erase, List.filter_map, Function.comp_def]
  | other hn =>
    have : actions [h] = [] := by simp [actions, Happening.action?_eq_none hn]
    rw [this]
    rfl

theorem Replays.acts (h : Replays s es s') (hs : s.Distinct) :
    s.chart.run? (actions (es.map (·.what))) = some s'.chart := by
  induction h with
  | nil => rfl
  | @cons s s' s'' e es hf _ ih =>
    rw [List.map_cons, ← List.singleton_append, actions_append, Chart.run?_append, hf.acts hs]
    exact ih (hf.distinct hs)

end Store

theorem Point.Goes.actions_le {s s' : Shared} {t : Tid} {call : Nat} {p : Point}
    {hs : List Happening} {c : Course Point} (h : p.Goes s t call hs s' c) :
    (actions hs).length ≤ 1 := by
  cases h with
  | fetch h => cases h <;> simp [actions, Happening.action?]
  | erase h => cases h <;> simp [actions, Happening.action?]
  | clear h => cases h <;> simp [actions, Happening.action?]
  | sweep h => cases h <;> simp [actions, Happening.action?]
  | _ => simp [actions]

namespace Machine

variable {policy : Policy} {m m' : Machine} {es es' : List Timed}

theorem actions_take (m : Machine) (t : Tid) (call : Nat) (rest : List Frame)
    (turn : Turn Point) :
    actions ((m.take t call rest turn).2.map (·.what)) = actions turn.happened := by
  obtain ⟨s, happened, course⟩ := turn
  cases course with
  | go p => simp [take, Function.comp_def]
  | finish o => simp [take, Function.comp_def]
  | gated p =>
    simp only [take, push, List.map_append, List.map_map, actions_append]
    simp [actions, Function.comp_def, Happening.action?]

theorem actions_next?_le {l : Label} {es : List Event} (h : m.next? l = some (m', es)) :
    (actions (es.map (·.what))).length ≤ 1 := by
  cases l with
  | call t op =>
    obtain ⟨-, h⟩ := Option.ite_none_right_eq_some.1 h
    cases h
    simp [actions, Happening.action?]
  | step t =>
    simp only [next?, step?] at h
    split at h
    · cases h
    · cases h
      simp [actions, Happening.action?]
    · obtain ⟨turn, hp, hm'⟩ := Option.map_eq_some_iff.1 h
      have := actions_take m t ‹_› ‹_› turn
      rw [hm'] at this
      rw [this]
      exact (Point.goes_of_step hp).actions_le
  | reply t r =>
    simp only [next?, reply?] at h
    split at h
    · cases h
    · obtain ⟨turn, hp, hm'⟩ := Option.map_eq_some_iff.1 h
      cases hm'
      have := (@Point.goes_of_reply _ t 0 _ _ _ hp).actions_le
      rw [← List.singleton_append, actions_append] at this
      rw [List.map_cons, ← List.singleton_append, actions_append, actions_take]
      exact this
  | advance ns =>
    cases h
    simp [actions]

theorem Trace.replays (h : Trace m es' m') (ha : m.Account policy es) :
    Store.Replays m.shared.store es' m'.shared.store := by
  obtain ⟨s, hs, h'⟩ := (h.account_from ha).replays.split
  obtain rfl := hs.unique ha.replays
  exact h'

theorem Account.acts {l : Label} {evs : List Event} (ha : m.Account policy es)
    (h : m.next? l = some (m', evs)) :
    m.shared.store.chart.run? (actions (evs.map (·.what))) = some m'.shared.store.chart := by
  have := ((ha.shaped.trace h).replays ha).acts (ha.replays.distinct .empty)
  rwa [List.map_map] at this

end Machine

end Lapse
