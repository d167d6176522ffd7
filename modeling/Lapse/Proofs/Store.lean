import Lapse.Store

namespace Lapse

theorem Key.same_congr_left {a b : Key} (h : a.same b = true) (c : Key) :
    a.same c = b.same c :=
  Bool.eq_iff_iff.2 ⟨fun hc => same_trans (same_symm h) hc, fun hc => same_trans h hc⟩

theorem Key.same_congr_right {a b : Key} (h : a.same b = true) (c : Key) :
    c.same a = c.same b := by
  rw [same_comm c a, same_comm c b, same_congr_left h]

namespace Store

theorem find?_congr (s : Store) {k k' : Key} (h : k.same k' = true) :
    s.find? k = s.find? k' := by
  simp only [find?, Key.same_congr_right h]

theorem contains_congr (s : Store) {k k' : Key} (h : k.same k' = true) :
    s.contains k = s.contains k' := by
  simp only [contains, Key.same_congr_right h]

theorem find?_eq_none_iff {s : Store} {k : Key} :
    s.find? k = none ↔ s.contains k = false := by
  rw [← find?_isSome, Option.isSome_eq_false_iff, Option.isNone_iff_eq_none]

theorem contains_of_find? {s : Store} {k : Key} {r : Record} (h : s.find? k = some r) :
    s.contains k = true := by
  rw [← find?_isSome, h]
  rfl

@[simp] theorem find?_empty (k : Key) : empty.find? k = none := rfl

theorem find?_append (s : Store) (k k' : Key) (r : Record) :
    (s.append k r).find? k' =
      (s.find? k').or (if k.same k' then some r else none) := by
  simp only [find?, append, List.find?_append, List.find?_singleton]
  cases s.entries.find? (·.key.same k') <;> cases k.same k' <;> rfl

theorem find?_replace (s : Store) (k k' : Key) (r : Record) :
    (s.replace k r).find? k' =
      if k.same k' then (s.find? k').map fun _ => r else s.find? k' := by
  obtain ⟨entries⟩ := s
  simp only [find?, replace]
  induction entries with
  | nil => simp
  | cons e es ih =>
    have hkey : (if e.key.same k then { e with record := r } else e).key = e.key := by
      split <;> rfl
    simp only [List.map_cons, List.find?_cons, hkey]
    cases hk' : e.key.same k' with
    | false => simpa using ih
    | true =>
      rw [Key.same_comm e.key k, ← Key.same_congr_right hk']
      cases k.same e.key <;> simp

theorem find?_erase (s : Store) (k k' : Key) :
    (s.erase k).find? k' = if k.same k' then none else s.find? k' := by
  obtain ⟨entries⟩ := s
  simp only [find?, erase, List.find?_filter]
  induction entries with
  | nil => simp
  | cons e es ih =>
    cases hk' : e.key.same k' with
    | false => simpa [hk'] using ih
    | true =>
      have hsame : e.key.same k = k.same k' := by
        rw [Key.same_comm, Key.same_congr_right hk']
      cases hk : k.same k' with
      | false => simp [hsame, hk, hk']
      | true => simpa [hsame, hk] using ih

theorem contains_append (s : Store) (k k' : Key) (r : Record) :
    (s.append k r).contains k' = (s.contains k' || k.same k') := by
  simp [contains, append]

theorem contains_replace (s : Store) (k k' : Key) (r : Record) :
    (s.replace k r).contains k' = s.contains k' := by
  rw [Bool.eq_iff_iff, contains_iff, contains_iff, keys_replace]

theorem contains_erase (s : Store) (k k' : Key) :
    (s.erase k).contains k' = (s.contains k' && !k.same k') := by
  rw [← find?_isSome, find?_erase, ← find?_isSome]
  cases k.same k' <;> simp

def Distinct (s : Store) : Prop := s.keys.Pairwise fun a b => a.same b = false

theorem Distinct.empty : empty.Distinct := .nil

theorem Distinct.append {s : Store} (hs : s.Distinct) {k : Key} (hk : s.contains k = false)
    (r : Record) : (s.append k r).Distinct := by
  rw [Distinct, keys_append, List.pairwise_append]
  refine ⟨hs, List.pairwise_singleton _ _, ?_⟩
  intro a ha b hb
  obtain rfl := List.mem_singleton.1 hb
  cases hab : a.same b with
  | false => rfl
  | true =>
    rw [(contains_iff s b).2 ⟨a, ha, hab⟩] at hk
    cases hk

theorem Distinct.replace {s : Store} (hs : s.Distinct) (k : Key) (r : Record) :
    (s.replace k r).Distinct := by
  rwa [Distinct, keys_replace]

theorem Distinct.erase {s : Store} (hs : s.Distinct) (k : Key) : (s.erase k).Distinct := by
  rw [Distinct, keys_erase]
  exact hs.filter _

@[simp] theorem size_append (s : Store) (k : Key) (r : Record) :
    (s.append k r).size = s.size + 1 := by
  simp [size, append]

@[simp] theorem size_replace (s : Store) (k : Key) (r : Record) :
    (s.replace k r).size = s.size := by
  simp [size, replace]

theorem size_erase {s : Store} (hs : s.Distinct) {k : Key} (hk : s.contains k = true) :
    (s.erase k).size + 1 = s.size := by
  obtain ⟨entries⟩ := s
  simp only [Distinct, keys, size, erase, contains] at *
  induction entries with
  | nil => simp at hk
  | cons e es ih =>
    rw [List.map_cons, List.pairwise_cons] at hs
    cases he : e.key.same k with
    | false =>
      simp only [List.any_cons, he, Bool.false_or] at hk
      simpa [he] using ih hs.2 hk
    | true =>
      -- the rest holds no entry of the key, so nothing else is dropped
      have hrest : es.filter (fun e => !e.key.same k) = es := by
        rw [List.filter_eq_self]
        intro e' he'
        have := hs.1 e'.key (List.mem_map_of_mem he')
        rw [Key.same_congr_left he, Key.same_comm] at this
        simp [this]
      simp [he, hrest]

end Store

end Lapse
