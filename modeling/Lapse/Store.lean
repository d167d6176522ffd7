import Lapse.Key
import Lapse.Lease

namespace Lapse

/-- A lease together with its identity: two records are the same only if their stamps are. -/
structure Record extends Lease where
  stamp : Nat
  deriving Inhabited

structure Entry where
  key : Key
  record : Record
  deriving Inhabited

structure Store where
  entries : List Entry
  deriving Inhabited

namespace Store

def empty : Store := ⟨[]⟩

def isEmpty (s : Store) : Bool := s.entries.isEmpty

def find? (s : Store) (k : Key) : Option Record :=
  (s.entries.find? (·.key.same k)).map (·.record)

def contains (s : Store) (k : Key) : Bool := s.entries.any (·.key.same k)

def replace (s : Store) (k : Key) (r : Record) : Store :=
  ⟨s.entries.map fun e => if e.key.same k then { e with record := r } else e⟩

def append (s : Store) (k : Key) (r : Record) : Store := ⟨s.entries ++ [⟨k, r⟩]⟩

/-- Puts a record under a key: in the key's place if it is there, else at the end. -/
def put (s : Store) (k : Key) (r : Record) : Store :=
  if s.contains k then s.replace k r else s.append k r

def erase (s : Store) (k : Key) : Store := ⟨s.entries.filter fun e => !e.key.same k⟩

def keys (s : Store) : List Key := s.entries.map (·.key)

def size (s : Store) : Nat := s.entries.length

def toList (s : Store) : List (Key × Value) := s.entries.map fun e => (e.key, e.record.value)

@[simp] theorem entries_empty : empty.entries = [] := rfl

@[simp] theorem keys_empty : empty.keys = [] := rfl

@[simp] theorem keys_append (s : Store) (k : Key) (r : Record) :
    (s.append k r).keys = s.keys ++ [k] := by
  simp [append, keys]

@[simp] theorem keys_replace (s : Store) (k : Key) (r : Record) :
    (s.replace k r).keys = s.keys := by
  simp only [keys, replace, List.map_map]
  congr 1
  funext e
  simp only [Function.comp]
  split <;> rfl

@[simp] theorem keys_erase (s : Store) (k : Key) :
    (s.erase k).keys = s.keys.filter fun k' => !k'.same k := by
  simp [keys, erase, List.filter_map, Function.comp_def]

theorem contains_iff (s : Store) (k : Key) :
    s.contains k = true ↔ ∃ k' ∈ s.keys, k'.same k = true := by
  simp only [contains, keys, List.any_eq_true, List.mem_map]
  exact ⟨fun ⟨e, he, h⟩ => ⟨e.key, ⟨e, he, rfl⟩, h⟩, fun ⟨_, ⟨e, he, rfl⟩, h⟩ => ⟨e, he, h⟩⟩

theorem find?_isSome (s : Store) (k : Key) : (s.find? k).isSome = s.contains k := by
  rw [Bool.eq_iff_iff]
  simp [find?, contains]

theorem put_of_contains {s : Store} {k : Key} (h : s.contains k = true) (r : Record) :
    s.put k r = s.replace k r := by
  simp [put, h]

theorem put_of_not_contains {s : Store} {k : Key} (h : s.contains k = false) (r : Record) :
    s.put k r = s.append k r := by
  simp [put, h]

end Store

end Lapse
