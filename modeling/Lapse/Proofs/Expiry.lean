import Lapse.Proofs.Residence

namespace Lapse

/-- What precedes a sweep's deletion of a record: a fetch put it, and from then on nothing
happened to the key; the sweep found it, saw that its time was up, and had it approved. -/
inductive Swept (checks : Bool) (c : Nat) (k : Key) (r : Record) (es : List Timed) : Prop
  | intro {p q b l : List Timed} {f w x : Timed} {key ttl : Value} {k' : Key} {n : Int} :
    es = p ++ w :: (q ++ x :: b) → f ∈ p → f.call = w.call → f.what = .called (.fetch key ttl) →
    Fetch.Means w.call key ttl k' n → k'.same k = true → Fetch.Puts k' n (trail p w.call) w r →
    (∀ e ∈ q ++ x :: b, e.what.touches k = false) → x.call = c → x.what = .examined k r →
    trail b c = l → Sweep.Judged checks k r l → Swept checks c k r es

structure Expiry (policy : Policy) (es : List Timed) : Prop where
  lawful : ∀ {j : Nat} {b d : Timed} {k : Key} {r : Record}, es[j]? = some d →
    d.what = .deleted k r → b ∈ es.take j → b.call = d.call → b.what = .called .sweep →
    Swept policy.checks d.call k r (es.take j)
  saved : ∀ {i n j : Nat} {x e d : Timed} {k k' : Key} {o : Option Record} {r : Record},
    i < n → n < j → es[i]? = some x → x.what = .examined k o → es[n]? = some e →
    e.what.touches k = true → es[j]? = some d → d.call = x.call → k'.same k = true →
    d.what ≠ .deleted k' r
  /-- While the clock does not exceed the deadline of the last access, no sweep deletes the
  entry. -/
  kept : ∀ {i j : Nat} {w b d : Timed} {k k' : Key} {r r' : Record}, i < j → es[i]? = some w →
    w.what.touches k = true → w.what.written? = some r →
    (∀ x e, i < x → x < j → es[x]? = some e → e.clock ≤ r.deadline ∧
      (e.what.touches k = true → e.what.written? = none)) →
    es[j]? = some d → k'.same k = true → d.what = .deleted k' r' → b ∈ es.take j →
    b.call = d.call → b.what ≠ .called .sweep

theorem cons_split_cases {α : Type} {p q p' q' : List α} {x x' : α}
    (h : p ++ x :: q = p' ++ x' :: q') : (∃ a, p' = p ++ x :: a ∧ q = a ++ x' :: q') ∨
      (p = p' ∧ x = x' ∧ q = q') ∨ ∃ a, p = p' ++ x' :: a ∧ q' = a ++ x :: q := by
  obtain ⟨a, hp, hq⟩ | ⟨a, rfl, hq⟩ := append_eq_append_cons h
  · exact .inr (.inr ⟨a, hp, hq⟩)
  · cases a with
    | nil =>
      cases hq
      exact .inr (.inl (by simp))
    | cons y a =>
      cases hq
      exact .inl ⟨a, rfl, rfl⟩

theorem getElem?_of_between {α : Type} {p m q : List α} {a b y : α} (h : y ∈ m) :
    ∃ n, p.length < n ∧ n < p.length + (m.length + 1) ∧
      (p ++ a :: (m ++ b :: q))[n]? = some y := by
  obtain ⟨m₁, m₂, rfl⟩ := List.append_of_mem h
  refine ⟨_, by omega, ?_, (congrArg (·[_]?) ?_).trans (getElem?_second p m₁ (m₂ ++ b :: q) a y)⟩
  · simp
  · simp

theorem Happening.touches_congr (h : Happening) {k k' : Key} (hk : k.same k' = true) :
    h.touches k = h.touches k' := by
  simp only [touches, Key.same_congr_right hk]

theorem Fetch.Puts.written {k : Key} {n : Int} {l : List Timed} {w : Timed} {r : Record}
    (h : Puts k n l w r) : w.what.touched? = some k ∧ w.what.written? = some r := by
  cases h with
  | renewed hw => simp [hw, Happening.touched?, Happening.written?]
  | inserted hw => simp [hw, Happening.touched?, Happening.written?]

theorem Sweep.Judged.late {checks : Bool} {k : Key} {r : Record} {l : List Timed}
    (h : Judged checks k r l) : ∃ y ∈ l, r.deadline < y.clock := by
  cases h with
  | unchecked _ _ hlt => exact ⟨_, List.mem_cons_self, hlt⟩
  | checked _ _ hlt => exact ⟨_, List.mem_cons_self, hlt⟩

theorem keysExamined_cons {e : Timed} {k : Key} {o : Option Record} (l : List Timed)
    (he : e.what = .examined k o) : keysExamined (e :: l) = k :: keysExamined l := by
  simp [keysExamined, he]

theorem trail_cons {e : Timed} {c : Nat} (l : List Timed) (he : e.call = c) :
    trail (e :: l) c = e :: trail l c := by
  simp [trail, he]

theorem Sweep.Passing.apart_of_split {c : Nat} {p m q : List Timed} {x x' : Timed}
    {ks : List Key} {k k' : Key} {o o' : Option Record}
    (h : Passing (trail (p ++ x :: (m ++ x' :: q)) c) ks) (hx : x.call = c) (hx' : x'.call = c)
    (hw : x.what = .examined k o) (hw' : x'.what = .examined k' o') : k.same k' = false := by
  have := h.apart
  rw [trail_append, trail_cons _ hx, trail_append, trail_cons _ hx', keysExamined_append,
    keysExamined_cons _ hw, keysExamined_append, keysExamined_cons _ hw', List.append_assoc,
    List.pairwise_append, List.cons_append, List.pairwise_cons] at this
  exact this.2.1.1 k' (by simp)

theorem Sweep.Passing.unique {c : Nat} {es p q p' q' : List Timed} {x x' : Timed}
    {ks : List Key} {k k' : Key} {o o' : Option Record} (h : Passing (trail es c) ks)
    (he : es = p ++ x :: q) (he' : es = p' ++ x' :: q') (hx : x.call = c) (hx' : x'.call = c)
    (hw : x.what = .examined k o) (hw' : x'.what = .examined k' o') (hk : k'.same k = true) :
    q = q' := by
  obtain ⟨a, rfl, rfl⟩ | ⟨-, -, hq⟩ | ⟨a, rfl, rfl⟩ := cons_split_cases (he.symm.trans he')
  · rw [he] at h
    have := h.apart_of_split hx hx' hw hw'
    rw [Key.same_comm, hk] at this
    cases this
  · exact hq
  · rw [he'] at h
    have := h.apart_of_split hx' hx hw' hw
    rw [hk] at this
    cases this

theorem Point.Goes.sweep_of_examined {s s' : Shared} {t : Tid} {c : Nat} {p : Point}
    {hs : List Happening} {course : Course Point} (h : p.Goes s t c hs s' course) {k : Key}
    {o : Option Record} (hx : .examined k o ∈ hs) : ∃ w, p = .sweep w := by
  cases h with
  | @sweep w => exact ⟨w, rfl⟩
  | fetch h => cases h <;> simp at hx
  | erase h => cases h <;> simp at hx
  | clear h => cases h <;> simp at hx
  | _ => simp at hx

theorem Sighted.since_put {c : Nat} {k : Key} {r : Record} {es l : List Timed} {s : Store}
    (h : Sighted c k r es l) (hrep : Store.Replays .empty es s)
    (hinc : (stamps es).Pairwise (· < ·)) (hr : s.find? k = some r) :
    ∃ p w q x b, es = p ++ w :: (q ++ x :: b) ∧ x.call = c ∧ x.what = .examined k r ∧
      trail b c = l ∧ w.what.touches k = true ∧ w.what.written? = some r ∧
        ∀ e ∈ q ++ x :: b, e.what.touches k = false := by
  cases h with
  | @intro a b x s₀ hes hx hw hs hr₀ hl =>
    subst hes
    obtain ⟨s', ha, hxb⟩ := hrep.split
    obtain rfl := hs.unique ha
    have hno := hs.untouched hxb hinc hr₀ hr
    obtain ⟨hn, -⟩ | ⟨p, w, q, rfl, hwk, hwr, hq⟩ := hs.last_write hr₀
    · simp at hn
    · refine ⟨p, w, q, x, b, by simp, hx, hw, hl, hwk, hwr, ?_⟩
      intro e he
      obtain he | he := List.mem_append.1 he
      · exact hq e he
      · exact hno e he

namespace Machine

variable {policy : Policy} {clock interval : Int} {m : Machine} {es : List Timed}

theorem Trace.swept (h : Trace (.start policy clock interval) es m) {pre post : List Timed}
    {b d : Timed} {k : Key} {r : Record} (he : es = pre ++ d :: post)
    (hd : d.what = .deleted k r) (hb : b ∈ pre) (hc : b.call = d.call)
    (hw : b.what = .called .sweep) : Swept policy.checks d.call k r pre := by
  obtain ⟨todo, l, -, hs, hj⟩ := (h.origin he).sweeps hd hb hc hw
  have hrep := h.account.replays
  have hinc := h.account.increasing
  rw [he] at hrep hinc
  obtain ⟨s₁, s₂, h₁, hf, -⟩ := hrep.split_cons
  rw [hd] at hf
  rw [stamps_append, List.pairwise_append] at hinc
  obtain ⟨p, w, q, x, b', hpre, hx, hxw, hl, hwk, hwr, hno⟩ :=
    hs.since_put h₁ hinc.1 hf.of_deleted
  have hsplit : es = p ++ w :: (q ++ x :: (b' ++ d :: post)) := by simp [he, hpre]
  obtain ⟨key, ttl, k', n, ⟨f, hf, hfc, hfw⟩, hmeans, hk', hput⟩ := (h.origin hsplit).puts hwr
  have hsame : k'.same k = true := by simpa [Happening.touches, hk'] using hwk
  exact .intro hpre hf hfc hfw hmeans hsame hput hno hx hxw hl hj

theorem Origin.examining {pre : List Timed} {x : Timed} {k : Key} {o : Option Record}
    (h : Origin policy pre x) (hx : x.what = .examined k o) :
    ∃ b ∈ pre, b.call = x.call ∧ b.what = .called .sweep := by
  cases h with
  | called op he => simp [hx] at he
  | returned o he => simp [hx] at he
  | @turn m es op p s course hs hs' hstory _ _ hp _ hpre =>
    have hmem : .examined k o ∈ hs ++ x.what :: hs' := by simp [hx]
    obtain ⟨w, rfl⟩ := hp.sweep_of_examined hmem
    have hop := hstory.admits
    obtain ⟨b, hb, hc, hw⟩ := hstory.mem_called
    cases op with
    | sweep =>
      rw [hpre]
      exact ⟨b, List.mem_append_left _ hb, hc, hw⟩
    | _ => cases hop

theorem Trace.untouched (h : Trace (.start policy clock interval) es m) {p q post : List Timed}
    {x d : Timed} {k k' : Key} {o : Option Record} {r : Record}
    (he : es = p ++ x :: (q ++ d :: post)) (hx : x.what = .examined k o)
    (hd : d.what = .deleted k' r) (hc : d.call = x.call) (hk : k'.same k = true) :
    ∀ e ∈ q, e.what.touches k' = false := by
  have hsplit : es = (p ++ x :: q) ++ d :: post := by simp [he]
  obtain ⟨b, hb, hbc, hbw⟩ := (h.origin he).examining hx
  have hb : b ∈ p ++ x :: q := List.mem_append_left _ hb
  have hbc : b.call = d.call := by rw [hbc, hc]
  obtain ⟨todo, -, hpass, -⟩ := (h.origin hsplit).sweeps hd hb hbc hbw
  cases h.swept hsplit hd hb hbc hbw with
  | @intro p' q' b' _ f w x' _ _ _ _ hpre _ _ _ _ _ _ hno hx' hxw' _ _ =>
    have hpre' : p ++ x :: q = (p' ++ w :: q') ++ x' :: b' := by simp [hpre]
    obtain rfl := hpass.unique rfl hpre' hc.symm hx' hx hxw' hk
    intro e he
    exact hno e (by simp [he])

theorem Trace.kept (h : Trace (.start policy clock interval) es m) {p q post : List Timed}
    {w b d : Timed} {k k' : Key} {r r' : Record} (he : es = p ++ w :: (q ++ d :: post))
    (hk : w.what.touches k = true) (hr : w.what.written? = some r)
    (hq : ∀ e ∈ q, e.clock ≤ r.deadline ∧ (e.what.touches k = true → e.what.written? = none))
    (hs : k'.same k = true) (hd : d.what = .deleted k' r') (hb : b ∈ p ++ w :: q)
    (hc : b.call = d.call) : b.what ≠ .called .sweep := by
  intro hbw
  have hsplit : es = (p ++ w :: q) ++ d :: post := by simp [he]
  cases h.swept hsplit hd hb hc hbw with
  | @intro p' q' b' _ f w' x _ _ k'' n hpre _ _ _ _ hs' hput hno _ _ hl hj =>
    subst hl
    obtain ⟨ht, hw'⟩ := hput.written
    obtain ⟨a, -, rfl⟩ | ⟨-, rfl, rfl⟩ | ⟨a, -, hq'⟩ := cons_split_cases hpre
    · -- the last access was later
      have hk'' : w'.what.touches k = true := by
        simpa [Happening.touches, ht] using Key.same_trans hs' hs
      rw [(hq w' (by simp)).2 hk''] at hw'
      cases hw'
    · rw [hw'] at hr
      cases hr
      obtain ⟨y, hy, hlt⟩ := hj.late
      have := (hq y (by simp [(mem_trail.1 hy).1])).1
      omega
    · -- the last access was earlier
      have := hno w (by simp [hq'])
      rw [Happening.touches_congr _ hs, hk] at this
      cases this

end Machine

/-- In every run, whatever callbacks do, sweeps delete only what expired since its last access. -/
theorem Run.expiry {policy : Policy} {clock interval : Int} {h : List Move} {m : Machine}
    (hr : Run (.start policy clock interval) h m) : Expiry policy (chronicle clock h) := by
  have ht := hr.trace
  constructor
  case lawful =>
    intro j b d k r hj hd hb hc hw
    obtain ⟨pre, post, hes, rfl⟩ := split_at hj
    rw [hes, List.take_left] at hb ⊢
    exact ht.swept hes hd hb hc hw
  case saved =>
    intro i n j x e d k k' o r hin hnj hi hx hn he hj hc hk hd
    obtain ⟨p, q, post, hes, rfl, rfl⟩ := split_between hi hj (Nat.lt_trans hin hnj)
    have hno := ht.untouched hes hx hd hc hk e (getElem?_between hin hnj (hes ▸ hn))
    rw [Happening.touches_congr _ hk, he] at hno
    cases hno
  case kept =>
    intro i j w b d k k' r r' hij hi hk hr hbetween hj hs hd hb hc
    obtain ⟨p, q, post, hes, rfl, rfl⟩ := split_between hi hj hij
    refine ht.kept hes hk hr ?_ hs hd ?_ hc
    · intro e he
      obtain ⟨n, hn, hn', hen⟩ := getElem?_of_between he
      exact hbetween n e hn hn' (hes ▸ hen)
    · have hlen : p.length + (q.length + 1) = (p ++ w :: q).length := by simp
      rwa [hes, hlen, ← List.cons_append, ← List.append_assoc, List.take_left] at hb

/-- A fetch while the predicate runs saves the entry from the first sweep, not from the second. -/
def renewal : List Label :=
  List.flatten [
    [.call 0 (.fetch (.int 1) (.int 5))], .replicate 11 (.step 0),
    [.reply 0 (.ok (.text "v"))], .replicate 6 (.step 0),
    [.advance 6, .call 1 .sweep], .replicate 8 (.step 1),
    [.call 0 (.fetch (.int 1) (.int 5))], .replicate 9 (.step 0),
    [.reply 1 (.ok (.bool true))], .replicate 6 (.step 1),
    [.advance 6, .call 1 .sweep], .replicate 8 (.step 1),
    [.reply 1 (.ok (.bool true))], .replicate 4 (.step 1)]

theorem expiry_renewal :
    ∃ h m, Run (.start ⟨true, false⟩ 0 1) h m ∧ Expiry ⟨true, false⟩ (chronicle 0 h) ∧
      (keysExamined (chronicle 0 h)).length = 2 ∧
      (chronicle 0 h).countP (·.what.isDeletion) = 1 :=
  ⟨_, _, .perform _ renewal, (Run.perform _ renewal).expiry, by decide +kernel,
    by decide +kernel⟩

end Lapse
