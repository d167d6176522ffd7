import Lapse.Machine.Run

namespace Lapse

mutual

def Value.normal : Value → Value
  | .bool b => .int (if b then 1 else 0)
  | .float x =>
    match x.integer? with
    | some i => .int i
    | none => .float x
  | .tuple vs => .tuple (Value.normals vs)
  | v => v

def Value.normals : List Value → List Value
  | [] => []
  | v :: vs => v.normal :: Value.normals vs

end

mutual

def Fault.normal : Fault → Fault
  | .recursive k => .recursive k.normal
  | .disposal failures => .disposal (Fault.normals failures)
  | f => f

def Fault.normals : List (Value × Fault) → List (Value × Fault)
  | [] => []
  | (v, f) :: failures => (v.normal, f.normal) :: Fault.normals failures

end

def Op.normal : Op → Op
  | .fetch key ttl => .fetch key.normal ttl
  | .erase key => .erase key.normal
  | op => op

def Answer.normal : Answer → Answer
  | .listing entries => .listing (entries.map fun (k, v) => (k.normal, v))
  | a => a

def Outcome.normal : Outcome → Outcome
  | .ok a => .ok a.normal
  | .error f => .error f.normal

def Reply.normal : Reply → Reply
  | .ok v => .ok v
  | .error f => .error f.normal

def Ask.normal : Ask → Ask
  | .supply k => .supply k.normal
  | a => a

def Log.normal : Log → Log
  | .disposalFailed k f => .disposalFailed k.normal f.normal
  | .patrolFailed f => .patrolFailed f.normal
  | l => l

def Happening.normal : Happening → Happening
  | called op => called op.normal
  | returned o => returned (Outcome.normal o)
  | asked a => asked a.normal
  | replied r => replied (Reply.normal r)
  | passed now => passed now
  | examined k r => examined k.normal r
  | judged k r now => judged k.normal r now
  | renewed k r => renewed k.normal r
  | inserted k r => inserted k.normal r
  | overwritten k r => overwritten k.normal r
  | deleted k r => deleted k.normal r
  | joined k c => joined k.normal c
  | retried k c => retried k.normal c
  | withdrawn k c => withdrawn k.normal c
  | logged l => logged l.normal

def Event.normal (e : Event) : Event := { e with what := e.what.normal }

def Label.normal : Label → Label
  | .call t op => .call t op.normal
  | .reply t r => .reply t (Reply.normal r)
  | l => l

def Move.normal (mv : Move) : Move := ⟨mv.label.normal, mv.events.map Event.normal⟩

def Entry.normal (e : Entry) : Entry := { e with key := e.key.normal }

def Store.normal (s : Store) : Store := ⟨s.entries.map Entry.normal⟩

def Creation.normal (c : Creation) : Creation := { c with key := c.key.normal }

def Shared.normal (s : Shared) : Shared :=
  { s with store := s.store.normal, pending := s.pending.map Creation.normal }

def Fetch.normal : Fetch → Fetch
  | coerce key ttl => coerce key.normal ttl
  | lookup key ttl => lookup key.normal ttl
  | register k ttl => register k.normal ttl
  | acquire k ttl c => acquire k.normal ttl c
  | claim k ttl c => claim k.normal ttl c
  | supply k ttl c => supply k.normal ttl c
  | insert k c l => insert k.normal c l
  | withdraw k c o => withdraw k.normal c (Outcome.normal o)
  | release c o => release c (Outcome.normal o)
  | again k ttl c => again k.normal ttl c

def Erase.normal : Erase → Erase
  | pop key => pop key.normal
  | e => e

def Clearing.normal (p : Clearing) : Clearing := ⟨p.todo.map Key.normal, Fault.normals p.failures⟩

def Clear.normal : Clear → Clear
  | snapshot => snapshot
  | scan p => scan p.normal
  | discard p k r => discard p.normal k.normal r
  | disposal p k r => disposal p.normal k.normal r

def Pass.normal (p : Pass) : Pass := { p with todo := p.todo.map Key.normal }

def Sweep.normal : Sweep → Sweep
  | scan p => scan p.normal
  | judge p k r => judge p.normal k.normal r
  | approval p k r => approval p.normal k.normal r
  | settle p k r => settle p.normal k.normal r
  | discard p k r => discard p.normal k.normal r
  | disposal p k r => disposal p.normal k.normal r
  | w => w

def Point.normal : Point → Point
  | fetch f => fetch f.normal
  | erase e => erase e.normal
  | clear c => clear c.normal
  | sweep w => sweep w.normal
  | done o => done (Outcome.normal o)
  | p => p

def Frame.normal (f : Frame) : Frame := { f with point := f.point.normal }

def Stacks.normal (s : Stacks) : Stacks := ⟨s.table.map fun (t, fs) => (t, fs.map Frame.normal)⟩

def Machine.normal (m : Machine) : Machine := ⟨m.shared.normal, m.calls.normal⟩

def Course.normal {α : Type} (f : α → α) : Course α → Course α
  | go a => go (f a)
  | gated a => gated (f a)
  | finish o => finish (Outcome.normal o)

def Turn.normal {α : Type} (f : α → α) (t : Turn α) : Turn α :=
  ⟨t.shared.normal, t.happened.map Happening.normal, t.course.normal f⟩

namespace Key

mutual

@[simp] theorem normal_normal : ∀ k : Key, k.normal.normal = k.normal
  | .null => rfl
  | .bool b => rfl
  | .int i => rfl
  | .float x => by
    cases h : x.integer? <;> simp [normal, ofQuantity, Quantity.ofFloat, h]
  | .nan source => rfl
  | .text s => rfl
  | .tuple ks => by simp only [normal, normals_normals]

theorem normals_normals : ∀ ks : List Key, normals (normals ks) = normals ks
  | [] => rfl
  | k :: ks => by simp only [normals, normal_normal, normals_normals]

end

@[simp] theorem same_normal (k k' : Key) : k.normal.same k'.normal = k.same k' := by
  simp [same]

mutual

theorem toValue_normal : ∀ k : Key, k.normal.toValue = k.toValue.normal
  | .null => rfl
  | .bool b => rfl
  | .int i => rfl
  | .float x => by
    cases h : x.integer? <;>
      simp [normal, ofQuantity, Quantity.ofFloat, h, toValue, Value.normal]
  | .nan source => rfl
  | .text s => rfl
  | .tuple ks => by simp only [normal, toValue, Value.normal, toValues_normals]

theorem toValues_normals : ∀ ks : List Key, toValues (normals ks) = Value.normals (toValues ks)
  | [] => rfl
  | k :: ks => by simp only [normals, toValues, Value.normals, toValue_normal, toValues_normals]

end

mutual

theorem ofValue_normal (source : Nat) :
    ∀ v : Value, ofValue source v.normal = (ofValue source v).map normal
  | .null => rfl
  | .bool b => rfl
  | .int i => rfl
  | .float x => by
    cases h : x.integer? with
    | some i =>
      have hx : x.isNan = false := by
        cases hd : x.datum <;> simp [Binary64.integer?, Binary64.isNan, hd] at h ⊢
      simp [Value.normal, h, ofValue, hx, Except.map, normal, ofQuantity, Quantity.ofFloat]
    | none =>
      simp only [Value.normal, h, ofValue]
      split <;> simp [Except.map, normal, ofQuantity, Quantity.ofFloat, h]
  | .text s => rfl
  | .tuple vs => by
    simp only [Value.normal, ofValue, ofValues_normals]
    cases ofValues source vs <;> simp [Except.map, normal]
  | .list vs => rfl
  | .dict fields => rfl

theorem ofValues_normals (source : Nat) :
    ∀ vs : List Value, ofValues source (Value.normals vs) = (ofValues source vs).map normals
  | [] => rfl
  | v :: vs => by
    simp only [Value.normals, ofValues, ofValue_normal source v, ofValues_normals source vs]
    cases ofValue source v <;> cases ofValues source vs <;> rfl

end

end Key

theorem Value.toKey_normal (source : Nat) (v : Value) :
    v.normal.toKey source = (v.toKey source).map Key.normal := by
  simp only [toKey, Key.ofValue_normal]
  cases Key.ofValue source v <;> rfl

theorem Value.toInteger_normal {v : Value} {f : Fault} (h : v.toInteger = .error f) :
    f.normal = f := by
  cases v with
  | bool b => cases h
  | int i => cases h
  | float x =>
    simp only [toInteger, Binary64.toInteger] at h
    split at h <;> cases h <;> rfl
  | text s =>
    simp only [toInteger] at h
    split at h <;> cases h <;> rfl
  | _ =>
    cases h
    rfl

theorem Value.toKey_error_normal {v : Value} {source : Nat} {f : Fault}
    (h : v.toKey source = .error f) : f.normal = f := by
  simp only [toKey] at h
  split at h <;> cases h
  rfl

@[simp] theorem Fault.isOrdinary_normal (f : Fault) : f.normal.isOrdinary = f.isOrdinary := by
  cases f <;> simp [normal, isOrdinary]

theorem Fault.normals_append (xs ys : List (Value × Fault)) :
    normals (xs ++ ys) = normals xs ++ normals ys := by
  induction xs with
  | nil => rfl
  | cons x xs ih => simp only [List.cons_append, normals, ih]

namespace Store

@[simp] theorem isEmpty_normal (s : Store) : s.normal.isEmpty = s.isEmpty := by
  simp [normal, isEmpty]

@[simp] theorem keys_normal (s : Store) : s.normal.keys = s.keys.map Key.normal := by
  simp [normal, keys, Entry.normal]

@[simp] theorem size_normal (s : Store) : s.normal.size = s.size := by simp [normal, size]

theorem toList_normal (s : Store) :
    s.normal.toList = s.toList.map fun (k, v) => (k.normal, v) := by
  simp [normal, toList, Entry.normal]

@[simp] theorem find?_normal (s : Store) (k : Key) : s.normal.find? k.normal = s.find? k := by
  simp [find?, normal, Entry.normal, List.find?_map, Function.comp_def]

@[simp] theorem contains_normal (s : Store) (k : Key) :
    s.normal.contains k.normal = s.contains k := by
  simp [contains, normal, Entry.normal, Function.comp_def]

@[simp] theorem put_normal (s : Store) (k : Key) (r : Record) :
    s.normal.put k.normal r = (s.put k r).normal := by
  simp only [put, contains_normal]
  split
  · simp only [replace, normal, List.map_map, Function.comp_def, Entry.normal, Key.same_normal]
    congr 2
    funext e
    split <;> rfl
  · simp [append, normal, Entry.normal]

@[simp] theorem erase_normal (s : Store) (k : Key) :
    s.normal.erase k.normal = (s.erase k).normal := by
  simp [erase, normal, List.filter_map, Function.comp_def, Entry.normal]

end Store

namespace Shared

@[simp] theorem store_normal (s : Shared) : s.normal.store = s.store.normal := rfl

@[simp] theorem policy_normal (s : Shared) : s.normal.policy = s.policy := rfl

@[simp] theorem clock_normal (s : Shared) : s.normal.clock = s.clock := rfl

@[simp] theorem due_normal (s : Shared) : s.normal.due = s.due := rfl

@[simp] theorem fresh_normal (s : Shared) : s.normal.fresh = s.fresh := rfl

@[simp] theorem pending?_normal (s : Shared) (k : Key) :
    s.normal.pending? k.normal = (s.pending? k).map Creation.normal := by
  simp [pending?, normal, List.find?_map, Function.comp_def, Creation.normal]

@[simp] theorem isPending_normal (s : Shared) (k : Key) (c : Nat) :
    s.normal.isPending k.normal c = s.isPending k c := by
  simp only [isPending, pending?_normal]
  cases s.pending? k <;> rfl

@[simp] theorem isHeld_normal (s : Shared) (c : Nat) : s.normal.isHeld c = s.isHeld c := rfl

@[simp] theorem hold_normal (s : Shared) (c : Nat) (t : Tid) :
    s.normal.hold c t = (s.hold c t).normal := rfl

@[simp] theorem letGo_normal (s : Shared) (c : Nat) : s.normal.letGo c = (s.letGo c).normal := rfl

@[simp] theorem own_normal (s : Shared) (c : Nat) (t : Tid) :
    s.normal.own c t = (s.own c t).normal := by
  simp only [own, normal, List.map_map]
  congr 2
  funext p
  simp only [Function.comp, Creation.normal]
  by_cases h : (p.id == c) = true <;> simp [h]

@[simp] theorem withdraw_normal (s : Shared) (c : Nat) :
    s.normal.withdraw c = (s.withdraw c).normal := by
  simp [withdraw, normal, List.filter_map, Function.comp_def, Creation.normal]

@[simp] theorem create_normal (s : Shared) (k : Key) :
    s.normal.create k.normal = (s.create k).normal := by
  simp [create, normal, Creation.normal]

@[simp] theorem record_normal (s : Shared) (l : Lease) : s.normal.record l = s.record l := rfl

@[simp] theorem put_normal (s : Shared) (k : Key) (l : Lease) :
    s.normal.put k.normal l = (s.put k l).normal := by
  simp [put, normal, record]

@[simp] theorem erase_normal (s : Shared) (k : Key) :
    s.normal.erase k.normal = (s.erase k).normal := by
  simp [erase, normal]

@[simp] theorem isStored_normal (s : Shared) (k : Key) (r : Record) :
    s.normal.isStored k.normal r = s.isStored k r := by
  simp [isStored, normal]

end Shared

theorem Fetch.renew_normal (s : Shared) (k : Key) (r : Record) (ttl : Int) :
    renew s.normal k.normal r ttl = (renew s k r ttl).normal normal := by
  simp only [renew, Turn.normal, Course.normal, Shared.put_normal, Shared.record_normal]
  rfl

theorem Fetch.step_normal (f : Fetch) (s : Shared) (t : Tid) (call : Nat) :
    f.normal.step s.normal t call = (f.step s t call).map (Turn.normal normal) := by
  cases f with
  | coerce key ttl =>
    simp only [normal, step]
    split
    · rename_i h
      simp [Turn.normal, Course.normal, Outcome.normal, Value.toInteger_normal h]
    · rfl
  | lookup key ttl =>
    simp only [normal, step, Value.toKey_normal]
    cases h : key.toKey call with
    | error f => simp [Except.map, Turn.normal, Course.normal, Outcome.normal,
        Value.toKey_error_normal h]
    | ok k =>
      simp only [Except.map, Shared.store_normal, Store.find?_normal]
      split
      · simp [renew_normal]
      · rfl
  | register k ttl =>
    simp only [normal, step, Shared.store_normal, Store.find?_normal,
      Shared.pending?_normal]
    split
    · simp [renew_normal]
    · cases h : s.pending? k with
      | none =>
        simp only [Option.map_none, Shared.create_normal, Shared.fresh_normal]
        rfl
      | some c =>
        simp only [Option.map_some, Creation.normal]
        by_cases h : c.owner = some t <;> simp only [h, reduceIte] <;> rfl
  | acquire k ttl c =>
    simp only [normal, step, Shared.isHeld_normal]
    by_cases h : s.isHeld c = true <;> simp only [h, reduceIte] <;> rfl
  | claim k ttl c =>
    simp only [normal, step, Shared.isPending_normal, Shared.own_normal]
    cases s.isPending k c <;> rfl
  | supply k ttl c => rfl
  | insert k c l =>
    simp only [normal, step, Shared.store_normal, Store.contains_normal,
      Shared.put_normal, Shared.record_normal]
    cases s.store.contains k <;> rfl
  | withdraw k c o =>
    simp only [normal, step, Shared.isPending_normal, Shared.withdraw_normal]
    cases s.isPending k c <;> rfl
  | release c o => rfl
  | again k ttl c => rfl

theorem Fetch.reply_normal (f : Fetch) (s : Shared) (r : Reply) :
    f.normal.reply s.normal (Reply.normal r) = (f.reply s r).map (Turn.normal normal) := by
  cases f <;> cases r <;> rfl

theorem Erase.step_normal (e : Erase) (s : Shared) (call : Nat) :
    e.normal.step s.normal call = (e.step s call).map (Turn.normal normal) := by
  cases e with
  | pop key =>
    simp only [normal, step, Shared.store_normal, Store.isEmpty_normal, Value.toKey_normal]
    split
    · rfl
    · cases h : key.toKey call with
      | error f => simp [Except.map, Turn.normal, Course.normal, Outcome.normal,
          Value.toKey_error_normal h]
      | ok k =>
        simp only [Except.map, Store.find?_normal, Shared.erase_normal]
        split <;> rfl
  | discard r =>
    simp only [normal, step, Shared.policy_normal]
    by_cases h : s.policy.disposes = true <;> simp only [h, reduceIte] <;> rfl
  | disposal r => rfl
  | sweep => rfl
  | finish => rfl

theorem Erase.reply_normal (e : Erase) (s : Shared) (r : Reply) :
    e.normal.reply s.normal (Reply.normal r) = (e.reply s r).map (Turn.normal normal) := by
  cases e <;> cases r <;> rfl

theorem Clear.step_normal (c : Clear) (s : Shared) :
    c.normal.step s.normal = (c.step s).map (Turn.normal normal) := by
  cases c with
  | snapshot => simp [normal, step, Clearing.normal, Turn.normal, Course.normal, Fault.normals]
  | scan p =>
    obtain ⟨todo, failures⟩ := p
    cases todo with
    | nil => cases failures <;> rfl
    | cons k todo =>
      simp only [normal, step, Clearing.normal, List.map_cons, Shared.store_normal,
        Store.find?_normal, Shared.erase_normal]
      split <;> rfl
  | discard p k r =>
    simp only [normal, step, Shared.policy_normal]
    by_cases h : s.policy.disposes = true <;> simp only [h, reduceIte] <;> rfl
  | disposal p k r => rfl

theorem Clear.reply_normal (c : Clear) (s : Shared) (r : Reply) :
    c.normal.reply s.normal (Reply.normal r) = (c.reply s r).map (Turn.normal normal) := by
  cases c with
  | disposal p k x =>
    cases r with
    | ok v => rfl
    | error f =>
      simp only [normal, reply, Reply.normal, Fault.isOrdinary_normal]
      split
      · simp [Turn.normal, Course.normal, normal, Clearing.normal, Fault.normals_append,
          Fault.normals, Key.toValue_normal]
      · rfl
  | _ => cases r <;> rfl

theorem Sweep.step_normal (w : Sweep) (s : Shared) (t : Tid) :
    w.normal.step s.normal t = (w.step s t).map (Turn.normal normal) := by
  cases w with
  | begin => rfl
  | due now =>
    simp only [normal, step, Shared.due_normal]
    by_cases h : now < s.due <;> simp only [h, reduceIte] <;> rfl
  | contend now =>
    simp only [normal, step]
    cases h : s.gate with
    | none => simp [Shared.normal, h, Turn.normal, Course.normal, normal]
    | some u => simp [Shared.normal, h, Turn.normal, Course.normal, Outcome.normal, Answer.normal]
  | recheck now =>
    simp only [normal, step, Shared.due_normal]
    by_cases h : now < s.due <;> simp only [h, reduceIte] <;> rfl
  | snapshot => simp [normal, step, Pass.normal, Turn.normal, Course.normal]
  | scan p =>
    obtain ⟨todo, removed⟩ := p
    cases todo with
    | nil => cases removed <;> rfl
    | cons k todo =>
      simp only [normal, step, Pass.normal, List.map_cons, Shared.store_normal, Store.find?_normal]
      split <;> rfl
  | judge p k r =>
    simp only [normal, step, Shared.clock_normal, Shared.policy_normal]
    by_cases h : r.expired s.clock = true <;> by_cases h' : s.policy.checks = true <;>
      simp only [h, h', reduceIte] <;> rfl
  | approval p k r => rfl
  | settle p k r =>
    simp only [normal, step, Shared.isStored_normal, Shared.erase_normal]
    split <;> rfl
  | discard p k r =>
    simp only [normal, step, Shared.policy_normal]
    by_cases h : s.policy.disposes = true <;> simp only [h, reduceIte] <;> rfl
  | disposal p k r => rfl

theorem Sweep.reply_normal (w : Sweep) (s : Shared) (r : Reply) :
    w.normal.reply s.normal (Reply.normal r) = (w.reply s r).map (Turn.normal normal) := by
  cases w with
  | approval p k x =>
    cases r with
    | ok v =>
      simp only [normal, reply, Reply.normal]
      split <;> rfl
    | error f => rfl
  | disposal p k x =>
    cases r with
    | ok v => rfl
    | error f =>
      simp only [normal, reply, Reply.normal, Fault.isOrdinary_normal]
      split <;> rfl
  | _ => cases r <;> rfl

namespace Point

theorem map_normal {α : Type} {f : α → α} {g : α → Point} (h : ∀ a, g (f a) = (g a).normal)
    (turn : Option (Turn α)) :
    (turn.map (Turn.normal f)).map (Turn.map g) =
      (turn.map (Turn.map g)).map (Turn.normal normal) := by
  cases turn with
  | none => rfl
  | some turn =>
    obtain ⟨s, hs, c⟩ := turn
    cases c <;> simp [Turn.normal, Turn.map, Course.normal, Course.map, h]

theorem step_normal (p : Point) (s : Shared) (t : Tid) (call : Nat) :
    p.normal.step s.normal t call = (p.step s t call).map (Turn.normal normal) := by
  cases p with
  | fetch f =>
    simp only [normal, step, Fetch.step_normal]
    exact map_normal (g := fetch) (fun _ => rfl) _
  | erase e =>
    simp only [normal, step, Erase.step_normal]
    exact map_normal (g := erase) (fun _ => rfl) _
  | clear c =>
    simp only [normal, step, Clear.step_normal]
    exact map_normal (g := clear) (fun _ => rfl) _
  | sweep w =>
    simp only [normal, step, Sweep.step_normal]
    exact map_normal (g := sweep) (fun _ => rfl) _
  | size => simp [normal, step, Turn.normal, Course.normal, Outcome.normal, Answer.normal]
  | listing =>
    simp [normal, step, Turn.normal, Course.normal, Outcome.normal, Answer.normal,
      Store.toList_normal]
  | interval => rfl
  | setInterval ns =>
    simp only [normal, step]
    split
    · rename_i h
      simp [Turn.normal, Course.normal, Outcome.normal, Value.toInteger_normal h]
    · rfl
  | restart => rfl
  | done o => rfl

theorem reply_normal (p : Point) (s : Shared) (r : Reply) :
    p.normal.reply s.normal (Reply.normal r) = (p.reply s r).map (Turn.normal normal) := by
  cases p with
  | fetch f =>
    simp only [normal, reply, Fetch.reply_normal]
    exact map_normal (g := fetch) (fun _ => rfl) _
  | erase e =>
    simp only [normal, reply, Erase.reply_normal]
    exact map_normal (g := erase) (fun _ => rfl) _
  | clear c =>
    simp only [normal, reply, Clear.reply_normal]
    exact map_normal (g := clear) (fun _ => rfl) _
  | sweep w =>
    simp only [normal, reply, Sweep.reply_normal]
    exact map_normal (g := sweep) (fun _ => rfl) _
  | _ => rfl

theorem ask?_normal (p : Point) : p.normal.ask? = p.ask?.map Ask.normal := by
  cases p with
  | fetch f => cases f <;> rfl
  | erase e => cases e <;> rfl
  | clear c => cases c <;> rfl
  | sweep w => cases w <;> rfl
  | _ => rfl

end Point

@[simp] theorem mayCall_normal (fs : List Frame) : mayCall (fs.map Frame.normal) = mayCall fs := by
  cases fs with
  | nil => rfl
  | cons f fs => simp [mayCall, Frame.normal, Point.ask?_normal]

theorem Op.start_normal (op : Op) : op.normal.start = op.start.normal := by cases op <;> rfl

namespace Machine

def shown : Machine × List Event → Machine × List Event
  | (m, es) => (m.normal, es.map Event.normal)

variable (m : Machine) (t : Tid)

@[simp] theorem shared_normal : m.normal.shared = m.shared.normal := rfl

@[simp] theorem frames_normal : m.normal.frames t = (m.frames t).map Frame.normal := by
  simp only [frames, normal, Stacks.get, Stacks.normal]
  induction m.calls.table with
  | nil => rfl
  | cons p ps ih =>
    obtain ⟨u, fs⟩ := p
    simp only [List.map_cons, List.lookup_cons]
    cases t == u
    · exact ih
    · rfl

theorem set_normal (c : Stacks) (fs : List Frame) :
    c.normal.set t (fs.map Frame.normal) = (c.set t fs).normal := by
  simp [Stacks.set, Stacks.normal, List.filter_map, Function.comp_def]

theorem push_normal (op : Op) (fs : List Frame) :
    m.normal.push t op.normal (fs.map Frame.normal) = shown (m.push t op fs) := by
  simp [push, shown, normal, Shared.normal, Event.normal, Happening.normal, ← set_normal,
    Frame.normal, Op.start_normal]

theorem take_normal (call : Nat) (rest : List Frame) (turn : Turn Point) :
    m.normal.take t call (rest.map Frame.normal) (turn.normal Point.normal) =
      shown (m.take t call rest turn) := by
  obtain ⟨s, hs, c⟩ := turn
  cases c with
  | go p => simp [take, Turn.normal, Course.normal, shown, setFrames, normal, ← set_normal,
      Frame.normal, Event.normal, Function.comp_def]
  | finish o => simp [take, Turn.normal, Course.normal, shown, setFrames, normal, ← set_normal,
      Frame.normal, Point.normal, Event.normal, Function.comp_def]
  | gated p =>
    have h := push_normal ⟨s, m.calls⟩ t .sweep (⟨call, p⟩ :: rest)
    simp only [shown, Prod.ext_iff] at h
    obtain ⟨hm, hes⟩ := h
    simp only [take, Turn.normal, Course.normal, shown, Prod.mk.injEq, List.map_append]
    refine ⟨hm, ?_⟩
    rw [← hes, List.map_map, List.map_map]
    rfl

theorem finish_normal (call : Nat) (o : Outcome) (rest : List Frame) :
    m.normal.finish t call (Outcome.normal o) (rest.map Frame.normal) =
      shown (m.finish t call o rest) := by
  cases o with
  | ok a => simp [finish, Outcome.normal, shown, setFrames, normal, set_normal, Event.normal,
      Happening.normal]
  | error f =>
    cases rest with
    | nil => simp [finish, Outcome.normal, shown, setFrames, normal, ← set_normal, Event.normal,
        Happening.normal]
    | cons below others =>
      have h := mayCall_normal (below :: others)
      simp only [List.map_cons] at h
      simp only [finish, Outcome.normal, List.map_cons, h, shown, setFrames, normal, ← set_normal,
        List.map_nil, Event.normal, Happening.normal]
      by_cases h : mayCall (below :: others) = true <;> simp only [h, reduceIte] <;> rfl

theorem step?_normal : m.normal.step? t = (m.step? t).map shown := by
  simp only [step?, frames_normal]
  cases hf : m.frames t with
  | nil => rfl
  | cons f rest =>
    obtain ⟨call, p⟩ := f
    have hp := p.step_normal m.shared t call
    cases p with
    | done o => simp [Frame.normal, Point.normal, finish_normal]
    | _ =>
      simp only [Point.normal] at hp
      simp only [List.map_cons, Frame.normal, Point.normal, shared_normal, hp, Option.map_map,
        Function.comp_def, take_normal]

theorem reply?_normal (r : Reply) :
    m.normal.reply? t (Reply.normal r) = (m.reply? t r).map shown := by
  simp only [reply?, frames_normal]
  cases hf : m.frames t with
  | nil => rfl
  | cons f rest =>
    obtain ⟨call, p⟩ := f
    simp only [List.map_cons, Frame.normal, shared_normal, Point.reply_normal, Option.map_map]
    congr 1
    funext turn
    simp only [Function.comp, take_normal]
    simp [shown, Event.normal, Happening.normal]

theorem call?_normal (op : Op) : m.normal.call? t op.normal = (m.call? t op).map shown := by
  simp only [call?, frames_normal, mayCall_normal, push_normal]
  split <;> rfl

/-- A machine's normal form makes the same moves. -/
theorem next?_normal (l : Label) : m.normal.next? l.normal = (m.next? l).map shown := by
  cases l with
  | call t op => exact m.call?_normal t op
  | step t => exact m.step?_normal t
  | reply t r => exact m.reply?_normal t r
  | advance ns => rfl

end Machine

end Lapse
