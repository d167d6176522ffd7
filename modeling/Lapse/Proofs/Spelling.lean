import Lapse.Proofs.Equality
import Lapse.Proofs.Fate
import Lapse.Proofs.Fetching
import Lapse.Proofs.Normal
import Lapse.Proofs.Waiting

/-!
How keys are spelled does not matter. Two sessions whose key arguments are equal, and whose
callbacks do not go by the spelling, go on alike: all that can differ is the spelling of the keys
that are shown. Equal keys are never stored, nor being made, side by side, and an entry's key stays
spelled as it was when the entry was inserted.
-/

namespace Lapse

/-- One value written for another where a key is wanted: the same, or one that means an equal
key. -/
inductive Value.Respelled : Value → Value → Prop
  | refl (v : Value) : Respelled v v
  | key {source : Nat} {v v' : Value} {k k' : Key} : v.toKey source = .ok k →
    v'.toKey source = .ok k' → k.Equal k' → Respelled v v'

inductive Label.Respelled : Label → Label → Prop
  | refl (l : Label) : Respelled l l
  | fetch (t : Tid) {key key' : Value} (ttl : Value) : key.Respelled key' →
    Respelled (.call t (.fetch key ttl)) (.call t (.fetch key' ttl))
  | erase (t : Tid) {key key' : Value} : key.Respelled key' →
    Respelled (.call t (.erase key)) (.call t (.erase key'))
  | fault (t : Tid) {f f' : Fault} : f.normal = f'.normal →
    Respelled (.reply t (.error f)) (.reply t (.error f'))

/-- Whoever makes the moves, callers and callbacks and those who give the threads their turns: what
they do next, by what happened so far. -/
abbrev Driver := List Move → Option Label

def Machine.follow (h : List Move) (m : Machine) : Option Label → List Move × Machine
  | none => (h, m)
  | some l =>
    match m.next? l with
    | none => (h, m)
    | some (m', es) => (h ++ [⟨l, es⟩], m')

def Machine.drive (m : Machine) (d : Driver) : Nat → List Move × Machine
  | 0 => ([], m)
  | n + 1 =>
    let (h, m') := m.drive d n
    m'.follow h (d h)

def Driver.reading (ls : List Label) : Driver := fun h => ls[h.length]?

def Alike (h h' : List Move) : Prop := h.map Move.normal = h'.map Move.normal

/-- After alike histories that the machine can have, the two drivers do the same next, but for the
spelling of keys. -/
def Driver.Respelled (m : Machine) (d d' : Driver) : Prop :=
  ∀ h h' m₁ m₁', Run m h m₁ → Run m h' m₁' → Alike h h' →
    Option.Rel Label.Respelled (d h) (d' h')

inductive SpelledBy (es : List Timed) (e : Entry) : Prop
  | intro {pre post : List Timed} {b w : Timed} {r : Record} {key ttl : Value} :
    es = pre ++ w :: post → w.what = .inserted e.key r → b ∈ pre → b.call = w.call →
    b.what = .called (.fetch key ttl) → key.toKey w.call = .ok e.key →
    (∀ x ∈ post, x.what.inserts e.key = false ∧ x.what.deletes e.key = false) → SpelledBy es e

/-- Of equal keys one is as good as the other: two drivers that respell drive the machine alike, as
looking up goes by the equality of keys; and in no state of a run do equal keys meet. -/
structure Congruent (m : Machine) (d d' : Driver) (es : List Timed) (m₁ : Machine) : Prop where
  equivalence : Equivalence fun a b : { k : Key // k.isProper = true } => a.1.Equal b.1
  lookup : ∀ {a b : Key}, a.isProper = true → b.isProper = true → (a.same b = true ↔ a.Equal b)
  histories : ∀ n, Alike (m.drive d n).1 (m.drive d' n).1
  machines : ∀ n, (m.drive d n).2.normal = (m.drive d' n).2.normal
  blocked : ∀ n t, (m.drive d n).2.Blocked t ↔ (m.drive d' n).2.Blocked t
  stored : m₁.shared.store.keys.Pairwise fun a b => ¬a.Equal b
  pending : (m₁.shared.pending.map (·.key)).Pairwise fun a b => ¬a.Equal b
  listed : ∀ e ∈ m₁.shared.store.entries, SpelledBy es e

theorem Value.toValue_of_toKey {source : Nat} {v : Value} {k : Key} (h : v.toKey source = .ok k)
    (hk : k.isProper = true) : k.toValue = v := by
  simp only [toKey] at h
  split at h
  · rename_i hv
    cases h
    exact Key.toValue_of_ofValue hv hk
  · cases h

theorem Value.Respelled.normal {v v' : Value} (h : v.Respelled v') : v.normal = v'.normal := by
  cases h with
  | refl => rfl
  | key hv hv' h =>
    rw [← toValue_of_toKey hv h.isProper.1, ← toValue_of_toKey hv' h.isProper.2,
      ← Key.toValue_normal, ← Key.toValue_normal, h.normal]

theorem Label.Respelled.normal {l l' : Label} (h : l.Respelled l') : l.normal = l'.normal := by
  cases h with
  | refl => rfl
  | fetch t ttl h => simp only [Label.normal, Op.normal, h.normal]
  | erase t h => simp only [Label.normal, Op.normal, h.normal]
  | fault t h => simp only [Label.normal, Reply.normal, h]

namespace Machine

variable {m m' m₁ m₁' : Machine} {l l' : Label} {es es' : List Event}

theorem alike_next? (hm : m.normal = m'.normal) (hl : l.normal = l'.normal) :
    (m.next? l).map shown = (m'.next? l').map shown := by
  rw [← next?_normal, ← next?_normal, hm, hl]

theorem run_drive (m : Machine) (d : Driver) (n : Nat) : Run m (m.drive d n).1 (m.drive d n).2 := by
  induction n with
  | zero => exact .start
  | succ n ih =>
    simp only [drive, follow]
    split
    · exact ih
    · split
      · exact ih
      · rename_i hl
        exact ih.next hl

theorem follow_alike {h h' : List Move} {c c' : Option Label} (hm : m.normal = m'.normal)
    (hh : Alike h h') (hc : Option.Rel Label.Respelled c c') :
    Alike (m.follow h c).1 (m'.follow h' c').1 ∧
      (m.follow h c).2.normal = (m'.follow h' c').2.normal := by
  cases hc with
  | none => exact ⟨hh, hm⟩
  | @some l l' hl =>
    have hnext := alike_next? hm hl.normal
    simp only [follow]
    cases hn : m.next? l with
    | none =>
      rw [hn, Option.map_none, eq_comm, Option.map_eq_none_iff] at hnext
      simp only [hnext]
      exact ⟨hh, hm⟩
    | some next =>
      rw [hn, Option.map_some, eq_comm, Option.map_eq_some_iff] at hnext
      obtain ⟨next', hn', hshown⟩ := hnext
      obtain ⟨hm', hes⟩ := Prod.mk.inj hshown
      simp only [hn']
      refine ⟨?_, hm'.symm⟩
      simp only [Alike, List.map_append, List.map_cons, Move.normal, hl.normal, hes]
      rw [hh]

theorem drive_alike {d d' : Driver} (hd : Driver.Respelled m d d') (n : Nat) :
    Alike (m.drive d n).1 (m.drive d' n).1 ∧
      (m.drive d n).2.normal = (m.drive d' n).2.normal := by
  induction n with
  | zero => exact ⟨rfl, rfl⟩
  | succ n ih =>
    obtain ⟨hh, hm⟩ := ih
    exact follow_alike hm hh (hd _ _ _ _ (m.run_drive d n) (m.run_drive d' n) hh)

theorem alike_mayCall (hm : m.normal = m'.normal) (t : Tid) :
    mayCall (m.frames t) = mayCall (m'.frames t) := by
  rw [← mayCall_normal, ← frames_normal, hm, frames_normal, mayCall_normal]

theorem alike_blocked (hm : m.normal = m'.normal) (t : Tid) : m.Blocked t ↔ m'.Blocked t := by
  have hstep : (m.step? t).map shown = (m'.step? t).map shown := by
    rw [← step?_normal, hm, step?_normal]
  rw [Blocked, Blocked, alike_mayCall hm t, ← Option.map_eq_none_iff (f := shown), hstep,
    Option.map_eq_none_iff]

theorem drive_reading {g : List Move} (hr : Run m g m₁) (ls : List Label) :
    m.drive (.reading (g.map (·.label) ++ ls)) g.length = (g, m₁) := by
  induction hr generalizing ls with
  | start => rfl
  | @next h m' m'' l es _ hl ih =>
    have hd := ih (l :: ls)
    simp only [List.map_append, List.map_cons, List.map_nil, List.append_assoc, List.cons_append,
      List.nil_append, List.length_append, List.length_cons, List.length_nil, drive, hd]
    simp [follow, Driver.reading, hl]

theorem drive_of_run {h : List Move} (hr : Run m h m') :
    m.drive (.reading (h.map (·.label))) h.length = (h, m') := by
  simpa using drive_reading hr []

end Machine

namespace Store

variable {s s' : Store} {es : List Timed} {x : Happening} {e : Entry}

theorem Follows.spelled (hf : Follows s x s') (he : e ∈ s'.entries) :
    (∃ e₀ ∈ s.entries, e₀.key = e.key ∧ x.inserts e.key = false ∧ x.deletes e.key = false) ∨
      ∃ r, x = .inserted e.key r := by
  cases hf with
  | @inserted k r hk =>
    simp only [append, List.mem_append, List.mem_singleton] at he
    obtain he | rfl := he
    · refine .inl ⟨e, he, rfl, ?_, rfl⟩
      rw [Happening.inserts, Key.same_comm]
      exact Bool.eq_false_iff.2 fun h => by
        simp [(contains_iff s k).2 ⟨e.key, List.mem_map_of_mem he, h⟩] at hk
    · exact .inr ⟨r, rfl⟩
  | @renewed k r r' hr hv =>
    simp only [replace, List.mem_map] at he
    obtain ⟨e₀, he₀, rfl⟩ := he
    refine .inl ⟨e₀, he₀, ?_, rfl, rfl⟩
    split <;> rfl
  | @deleted k r hr =>
    simp only [erase, List.mem_filter, Bool.not_eq_true'] at he
    exact .inl ⟨e, he.1, rfl, rfl, by rw [Happening.deletes, Key.same_comm]; exact he.2⟩
  | other hx =>
    refine .inl ⟨e, he, rfl, ?_⟩
    cases x <;> simp_all [Happening.touched?, Happening.inserts, Happening.deletes]

theorem Replays.spelled (h : Replays s es s') (he : e ∈ s'.entries) :
    (∃ e₀ ∈ s.entries, e₀.key = e.key ∧
        ∀ x ∈ es, x.what.inserts e.key = false ∧ x.what.deletes e.key = false) ∨
      ∃ pre w post r, es = pre ++ w :: post ∧ w.what = .inserted e.key r ∧
        ∀ x ∈ post, x.what.inserts e.key = false ∧ x.what.deletes e.key = false := by
  induction h with
  | nil => exact .inl ⟨e, he, rfl, by simp⟩
  | @cons s s' s'' x es hf hrest ih =>
    obtain ⟨e₁, he₁, hkey, hno⟩ | ⟨pre, w, post, r, rfl, hw, hno⟩ := ih he
    · obtain ⟨e₀, he₀, hkey₀, hx⟩ | ⟨r, hx⟩ := hf.spelled he₁
      · rw [hkey] at hkey₀ hx
        exact .inl ⟨e₀, he₀, hkey₀, List.forall_mem_cons.2 ⟨hx, hno⟩⟩
      · rw [hkey] at hx
        exact .inr ⟨[], x, es, r, rfl, hx, hno⟩
    · exact .inr ⟨x :: pre, w, post, r, rfl, hw, hno⟩

end Store

theorem Key.not_equal_of_same {a b : Key} (h : a.same b = false) : ¬a.Equal b := fun heq => by
  simp [same_iff.2 heq.normal] at h

def Shared.Separate (s : Shared) : Prop :=
  (s.pending.map (·.key)).Pairwise fun a b => a.same b = false

namespace Shared.Separate

variable {s : Shared}

theorem create (hs : s.Separate) {k : Key} (hk : s.pending? k = none) : (s.create k).Separate := by
  simp only [Separate, Shared.create, List.map_append, List.map_cons, List.map_nil,
    List.pairwise_append]
  refine ⟨hs, List.pairwise_singleton _ _, ?_⟩
  simpa [pending?] using hk

theorem own (hs : s.Separate) (a : Nat) (t : Tid) : (s.own a t).Separate := by
  have hkeys : (s.own a t).pending.map (·.key) = s.pending.map (·.key) := by
    simp only [Shared.own, List.map_map]
    congr 1
    funext x
    simp only [Function.comp]
    split <;> rfl
  rw [Separate, hkeys]
  exact hs

theorem withdraw (hs : s.Separate) (a : Nat) : (s.withdraw a).Separate :=
  hs.sublist (List.filter_sublist.map _)

end Shared.Separate

theorem Point.Goes.separate {s s' : Shared} {t : Tid} {call : Nat} {p : Point}
    {hs : List Happening} {c : Course Point} (h : p.Goes s t call hs s' c) (hp : s.Separate) :
    s'.Separate := by
  cases h with
  | fetch h =>
    cases h with
    | created _ hk => exact hp.create hk
    | claimed => exact hp.own _ _
    | withdrawn => exact hp.withdraw _
    | _ => exact hp
  | erase h => cases h <;> exact hp
  | clear h => cases h <;> exact hp
  | sweep h => cases h <;> exact hp
  | _ => exact hp

theorem Machine.Change.separate {m m' : Machine} {es : List Timed} (h : Change m es m')
    (hm : m.shared.Separate) : m'.shared.Separate := by
  cases h with
  | turn _ hp => exact hp.separate hm
  | _ => exact hm

namespace Run

variable {policy : Policy} {clock interval : Int} {h : List Move} {m : Machine}

theorem spelled (hr : Run (.start policy clock interval) h m) {e : Entry}
    (he : e ∈ m.shared.store.entries) : SpelledBy (chronicle clock h) e := by
  obtain ⟨e₀, he₀, -⟩ | ⟨pre, w, post, r, heq, hw, hno⟩ := hr.trace.account.replays.spelled he
  · cases he₀
  · obtain ⟨key, ttl, k, n, ⟨b, hb, hcall, hcalled⟩, hmeans, htouched, -⟩ :=
      (hr.trace.origin heq).puts (r := r) (by rw [hw]; rfl)
    obtain rfl : e.key = k := by simpa [hw, Happening.touched?] using htouched
    exact ⟨heq, hw, hb, hcall, hcalled, hmeans.key, hno⟩

theorem separate (hr : Run (.start policy clock interval) h m) : m.shared.Separate :=
  hr.trace.invariant (P := fun m => m.shared.Separate) (fun hm h => h.separate hm) .nil

theorem distinct (hr : Run (.start policy clock interval) h m) : m.shared.store.Distinct :=
  hr.trace.account.replays.distinct .empty

/-- How keys are spelled does not matter. -/
theorem congruent (hr : Run (.start policy clock interval) h m) {d d' : Driver}
    (hd : Driver.Respelled (.start policy clock interval) d d') :
    Congruent (.start policy clock interval) d d' (chronicle clock h) m where
  equivalence := Key.equal_equivalence
  lookup := Key.same_iff_equal
  histories n := (Machine.drive_alike hd n).1
  machines n := (Machine.drive_alike hd n).2
  blocked n := Machine.alike_blocked (Machine.drive_alike hd n).2
  stored := hr.distinct.imp Key.not_equal_of_same
  pending := hr.separate.imp Key.not_equal_of_same
  listed _ he := hr.spelled he

end Run

theorem Driver.respelled_reading {ls ls' : List Label} (h : List.Forall₂ Label.Respelled ls ls')
    (m : Machine) : Driver.Respelled m (.reading ls) (.reading ls') := by
  intro g g' _ _ _ _ hg
  have hlen : g.length = g'.length := by simpa using congrArg List.length hg
  simp only [reading, hlen]
  generalize g'.length = n
  induction h generalizing n with
  | nil => exact .none
  | cons hl _ ih =>
    cases n with
    | zero => exact .some hl
    | succ n => exact ih n

/-- A supplier asks for its own key and fails with that; another thread, which waited for the key,
has it supplied then. A tuple is stored under one spelling and renewed under another. -/
def mixed (k : Key) (a b c d e : Value) : List Label :=
  List.flatten [
    [.call 0 (.fetch a (.int 5))], .replicate 8 (.step 0),
    [.call 0 (.fetch b (.int 5))], .replicate 7 (.step 0),
    [.call 1 (.fetch c (.int 5))], .replicate 6 (.step 1),
    [.reply 0 (.error (.recursive k))], .replicate 3 (.step 0), .replicate 6 (.step 1),
    [.reply 1 (.ok (.text "a"))], .replicate 4 (.step 1),
    [.call 0 (.fetch d (.int 5))], .replicate 8 (.step 0),
    [.reply 0 (.ok (.text "b"))], .replicate 4 (.step 0),
    [.advance 1, .call 1 (.fetch e (.int 5))], .replicate 6 (.step 1),
    [.call 1 (.erase a)], .replicate 8 (.step 1), [.call 0 .listing], .replicate 2 (.step 0)]

theorem respelled_mixed {k k' : Key} {a b c d e a' b' c' d' e' : Value}
    (hk : (Fault.recursive k).normal = (Fault.recursive k').normal) (ha : a.Respelled a')
    (hb : b.Respelled b') (hc : c.Respelled c') (hd : d.Respelled d') (he : e.Respelled e') :
    List.Forall₂ Label.Respelled (mixed k a b c d e) (mixed k' a' b' c' d' e') := by
  repeat' first
    | assumption
    | constructor

theorem Value.Respelled.of_same {v v' : Value} {k k' : Key} (hv : v.toKey 0 = .ok k)
    (hv' : v'.toKey 0 = .ok k') (hk : k.isProper = true) (hk' : k'.isProper = true)
    (h : k.same k' = true) : v.Respelled v' :=
  .key hv hv' ((Key.same_iff_equal hk hk').1 h)

def floatOne : Value := .float (.ofRatio false 1 1)

def spelledSo : List Label :=
  mixed (.bool true) (.int 1) (.bool true) floatOne (.tuple [.int 1, .tuple [.int 0]])
    (.tuple [.bool true, .tuple [.bool false]])

def spelledOtherwise : List Label :=
  mixed (.int 1) (.bool true) floatOne (.int 1) (.tuple [floatOne, .tuple [.float (.zero true)]])
    (.tuple [.int 1, .tuple [.int 0]])

theorem spelledSo_respelled : List.Forall₂ Label.Respelled spelledSo spelledOtherwise :=
  respelled_mixed rfl
    (.of_same rfl rfl (by decide) (by decide) (by decide +kernel))
    (.of_same rfl rfl (by decide) (by decide +kernel) (by decide +kernel))
    (.of_same rfl rfl (by decide +kernel) (by decide) (by decide +kernel))
    (.of_same rfl rfl (by decide) (by decide +kernel) (by decide +kernel))
    (.of_same rfl rfl (by decide) (by decide) (by decide +kernel))

def recursions (h : List Move) : Nat :=
  (eventsOf h).countP fun e => e.what matches .returned (.error (.recursive _))

theorem congruent_mixed :
    ∃ m : Machine, m = .start ⟨false, false⟩ 0 10 ∧ ∃ h m₁,
      Driver.Respelled m (.reading spelledSo) (.reading spelledOtherwise) ∧ Run m h m₁ ∧
      Congruent m (.reading spelledSo) (.reading spelledOtherwise) (chronicle 0 h) m₁ ∧
      h.length = 73 ∧ recursions h = 2 ∧
      m₁.shared.store.keys = [.tuple [.int 1, .tuple [.int 0]]] ∧
      (m.drive (.reading spelledOtherwise) 73).1.length = 73 ∧
      recursions (m.drive (.reading spelledOtherwise) 73).1 = 2 ∧
      (m.drive (.reading spelledOtherwise) 73).2.shared.store.keys =
        [.tuple [.float (.ofRatio false 1 1), .tuple [.float (.zero true)]]] := by
  have hd (m : Machine) : Driver.Respelled m (.reading spelledSo) (.reading spelledOtherwise) :=
    Driver.respelled_reading spelledSo_respelled m
  refine ⟨_, rfl, _, _, hd _, Machine.run_drive _ (.reading spelledSo) 73,
    (Machine.run_drive _ _ _).congruent (hd _), ?_⟩
  decide +kernel

end Lapse
