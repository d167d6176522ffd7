import Lapse.Proofs.Fate
import Lapse.Proofs.Sweeping

/-!
Rounds: calls that list the keys of the store at one instant and then visit them one after the
other, while others change the store.
-/

namespace Lapse

def Point.outcome? : Point → Option Outcome
  | .done o => some o
  | _ => none

def Left (es : List Timed) (k : Key) (o : Option Record) : Prop :=
  ∃ s, Store.Replays .empty es s ∧ s.find? k = o

/-- The store held just these keys, no two of them one, when the call had shown no more. -/
structure Listed (c : Nat) (shown : List Happening) (q : List Timed) (ks : List Key) : Prop where
  shown : (trail q c).map (·.what) = shown
  keys : ∃ s, Store.Replays .empty q s ∧ s.keys = ks
  apart : ks.Pairwise fun a b => a.same b = false

/-- How calls of a kind visit a key after a history: what is seen during the visit, and how it
ends; an error ends the call. -/
abbrev Visiting (α : Type) := List Timed → Key → List Timed → Except Fault α → Prop

variable {α : Type} {V : Visiting α} {c : Nat} {shown : List Happening} {q es es' : List Timed}
  {k : Key} {rs : List (Key × α)} {todo : List Key}

/-- Since `q` the call has visited these keys in their order, and shown nothing else. -/
inductive Walk (V : Visiting α) (c : Nat) (q : List Timed) : List (Key × α) → List Timed → Prop
  | start : Walk V c q [] q
  | visit {rs : List (Key × α)} {es b : List Timed} {k : Key} {a : α} :
    Walk V c q rs es → V es k b (.ok a) → Walk V c q (rs ++ [(k, a)]) (es ++ b)
  | others {rs : List (Key × α)} {es es' : List Timed} :
    Walk V c q rs es → (∀ e ∈ es', e.call ≠ c) → Walk V c q rs (es ++ es')

/-- A round through the keys that were listed after `q`, with what it has come to if it is over.
`Ends` says what a call shows when it has visited all the keys, and what it comes to then. -/
inductive Round (V : Visiting α) (Ends : List (Key × α) → List Happening → Outcome → Prop)
    (c : Nat) (shown : List Happening) (q es : List Timed) : Option Outcome → Prop
  | between {rs : List (Key × α)} {todo : List Key} :
    Listed c shown q (rs.map (·.1) ++ todo) → Walk V c q rs es → Round V Ends c shown q es none
  | visiting {es₀ b b' : List Timed} {rs : List (Key × α)} {k : Key} {todo : List Key}
    {x : Except Fault α} : Listed c shown q (rs.map (·.1) ++ k :: todo) → Walk V c q rs es₀ →
    es = es₀ ++ b → V es₀ k (b ++ b') x → Round V Ends c shown q es none
  | complete {es₀ b : List Timed} {rs : List (Key × α)} {o : Outcome} :
    Listed c shown q (rs.map (·.1)) → Walk V c q rs es₀ → es = es₀ ++ b →
    Ends rs ((trail b c).map (·.what)) o → Round V Ends c shown q es (some o)
  | cut {es₀ b b' : List Timed} {rs : List (Key × α)} {k : Key} {todo : List Key} {f : Fault} :
    Listed c shown q (rs.map (·.1) ++ k :: todo) → Walk V c q rs es₀ → es = es₀ ++ b ++ b' →
    V es₀ k b (.error f) → (∀ e ∈ b', e.call ≠ c) → Round V Ends c shown q es (some (.error f))

structure Standing (V : Visiting α) (c : Nat) (shown : List Happening) (q : List Timed)
    (rs : List (Key × α)) (todo : List Key) (es : List Timed) : Prop where
  listed : Listed c shown q (rs.map (·.1) ++ todo)
  walk : Walk V c q rs es

theorem Standing.visit {b : List Timed} {a : α} (h : Standing V c shown q rs (k :: todo) es)
    (hv : V es k b (.ok a)) : Standing V c shown q (rs ++ [(k, a)]) todo (es ++ b) where
  listed := by simpa using h.listed
  walk := h.walk.visit hv

theorem Standing.others (h : Standing V c shown q rs todo es) (ho : ∀ e ∈ es', e.call ≠ c) :
    Standing V c shown q rs todo (es ++ es') where
  listed := h.listed
  walk := h.walk.others ho

theorem Round.others {Ends : List (Key × α) → List Happening → Outcome → Prop} {x : Outcome}
    (h : Round V Ends c shown q es (some x)) (ho : ∀ e ∈ es', e.call ≠ c) :
    Round V Ends c shown q (es ++ es') (some x) := by
  cases h with
  | complete hl hw he hends =>
    refine .complete hl hw (by rw [he, List.append_assoc]) ?_
    rwa [trail_append, trail_eq_nil ho, List.append_nil]
  | cut hl hw he hv hb =>
    refine .cut hl hw (by rw [he, List.append_assoc]) hv ?_
    intro e hmem
    obtain hmem | hmem := List.mem_append.1 hmem
    · exact hb e hmem
    · exact ho e hmem

/-- How calls of a kind go round: what they have shown when they list the keys, how they visit one
and what they show when they find a record there, what they keep of their visits, and how they
end. -/
structure Circuit (α β : Type) where
  begins : List Happening → Prop
  visit : Visiting α
  finds : Key → Record → Happening
  ends : List (Key × α) → List Happening → Outcome → Prop
  tally : List (Key × α) → β
  add : Key → α → β → β
  tally_concat : ∀ rs k a, tally (rs ++ [(k, a)]) = add k a (tally rs)

namespace Circuit

variable {β : Type} (K : Circuit α β)

def Tour (c : Nat) (es : List Timed) (o : Option Outcome) : Prop :=
  ∃ shown q, K.begins shown ∧ Round K.visit K.ends c shown q es o

def Between (c : Nat) (todo : List Key) (n : β) (es : List Timed) : Prop :=
  ∃ shown q rs, K.begins shown ∧ Standing K.visit c shown q rs todo es ∧ K.tally rs = n

inductive At (c : Nat) (todo : List Key) (n : β) (k : Key) (r : Record) (es l : List Timed) : Prop
  | intro {es₀ b : List Timed} {x : Timed} : es = es₀ ++ x :: b → K.Between c (k :: todo) n es₀ →
    Left es₀ k (some r) → x.call = c → x.what = K.finds k r → trail b c = l →
    At c todo n k r es l

def Handles (c : Nat) (k : Key) (r : Record) (l : List Timed) (v : Except Fault α) : Prop :=
  ∀ es b x, Left es k (some r) → x.call = c → x.what = K.finds k r → trail b c = l →
    K.visit es k (x :: b) v

variable {K} {n : β} {r : Record} {l : List Timed} {a : α} {x : Timed}

theorem Tour.others {o : Outcome} (h : K.Tour c es (some o)) (ho : ∀ e ∈ es', e.call ≠ c) :
    K.Tour c (es ++ es') (some o) := by
  obtain ⟨shown, q, hb, h⟩ := h
  exact ⟨shown, q, hb, h.others ho⟩

theorem Between.start (hb : K.begins shown) (hl : Listed c shown es todo) :
    K.Between c todo (K.tally []) es :=
  ⟨shown, es, [], hb, ⟨hl, .start⟩, rfl⟩

theorem Between.visit {b : List Timed} (h : K.Between c (k :: todo) n es)
    (hv : K.visit es k b (.ok a)) : K.Between c todo (K.add k a n) (es ++ b) := by
  obtain ⟨shown, q, rs, hb, hs, rfl⟩ := h
  exact ⟨shown, q, rs ++ [(k, a)], hb, hs.visit hv, K.tally_concat rs k a⟩

theorem Between.others (h : K.Between c todo n es) (ho : ∀ e ∈ es', e.call ≠ c) :
    K.Between c todo n (es ++ es') := by
  obtain ⟨shown, q, rs, hb, hs, hn⟩ := h
  exact ⟨shown, q, rs, hb, hs.others ho, hn⟩

theorem Between.tour (h : K.Between c todo n es) : K.Tour c es none := by
  obtain ⟨shown, q, rs, hb, hs, -⟩ := h
  exact ⟨shown, q, hb, .between hs.listed hs.walk⟩

theorem Between.over {b : List Timed} {o : Outcome} (h : K.Between c [] n es)
    (ho : ∀ rs, K.tally rs = n → K.ends rs ((trail b c).map (·.what)) o) :
    K.Tour c (es ++ b) (some o) := by
  obtain ⟨shown, q, rs, hb, hs, hn⟩ := h
  exact ⟨shown, q, hb, .complete (by simpa using hs.listed) hs.walk rfl (ho rs hn)⟩

theorem Between.found (h : K.Between c (k :: todo) n es) (hr : Left es k (some r))
    (hx : x.call = c) (hw : x.what = K.finds k r) : K.At c todo n k r (es ++ [x]) [] :=
  ⟨rfl, h, hr, hx, hw, rfl⟩

theorem At.append (h : K.At c todo n k r es l) (es' : List Timed) :
    K.At c todo n k r (es ++ es') (l ++ trail es' c) := by
  obtain ⟨rfl, hb, hr, hx, hw, rfl⟩ := h
  exact ⟨by simp, hb, hr, hx, hw, trail_append ..⟩

theorem At.tell (h : K.At c todo n k r es l) (s : Shared) (t : Tid) (hs : List Happening) :
    K.At c todo n k r (es ++ s.tell t c hs) (l ++ s.tell t c hs) := by
  simpa using h.append (s.tell t c hs)

theorem At.others (h : K.At c todo n k r es l) (ho : ∀ e ∈ es', e.call ≠ c) :
    K.At c todo n k r (es ++ es') l := by
  have hes := h.append es'
  rwa [trail_eq_nil ho, List.append_nil] at hes

theorem At.next (h : K.At c todo n k r es l) (hv : K.Handles c k r l (.ok a)) :
    K.Between c todo (K.add k a n) es := by
  obtain ⟨rfl, hb, hr, hx, hw, rfl⟩ := h
  exact hb.visit (hv _ _ _ hr hx hw rfl)

theorem At.cut {f : Fault} (h : K.At c todo n k r es l) (hv : K.Handles c k r l (.error f)) :
    K.Tour c es (some (.error f)) := by
  obtain ⟨rfl, ⟨shown, q, rs, hb, hs, -⟩, hr, hx, hw, rfl⟩ := h
  exact ⟨shown, q, hb, .cut hs.listed hs.walk (List.append_nil _).symm (hv _ _ _ hr hx hw rfl)
    (List.forall_mem_nil _)⟩

theorem At.visiting {v : Except Fault α} (h : K.At c todo n k r es l) (l' : List Timed)
    (hc : ∀ e ∈ l', e.call = c) (hv : K.Handles c k r (l ++ l') v) : K.Tour c es none := by
  obtain @⟨es₀, b, x, rfl, ⟨shown, q, rs, hb, hs, -⟩, hr, hx, hw, rfl⟩ := h
  have hall : trail (b ++ l') c = trail b c ++ l' := by
    rw [trail_append]
    exact congrArg _ (List.filter_eq_self.2 (by simpa using hc))
  have hvisit : K.visit es₀ k (x :: b ++ l') v := hv _ _ _ hr hx hw hall
  exact ⟨shown, q, hb, .visiting hs.listed hs.walk rfl hvisit⟩

end Circuit

end Lapse
