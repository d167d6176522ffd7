import Mathlib.Algebra.Order.Field.Power
import Mathlib.Algebra.Order.Field.Rat
import Mathlib.Data.Nat.Cast.Field
import Mathlib.Tactic.Linarith
import Mathlib.Tactic.NormNum
import Mathlib.Tactic.Positivity
import Lapse.Key

namespace Lapse

inductive Amount
  | rational (q : ℚ)
  | infinite (negative : Bool)

def sign (negative : Bool) : ℚ := if negative then -1 else 1

namespace Binary64

def amount? (x : Binary64) : Option Amount :=
  match x.datum with
  | .nan => none
  | .infinite negative => some (.infinite negative)
  | .finite negative m q => some (.rational (sign negative * (m * 2 ^ q)))

structure Fits (m : Nat) (q : Int) : Prop where
  small : m < 2 ^ 53
  low : -1074 ≤ q
  leading : -1074 < q → 2 ^ 52 ≤ m

theorem fits_of_datum {x : Binary64} {negative : Bool} {m : Nat} {q : Int}
    (h : x.datum = .finite negative m q) : Fits m q := by
  have hf : x.fraction < 2 ^ 52 := Nat.mod_lt _ (by norm_num)
  simp only [datum] at h
  split at h
  · split at h <;> cases h
  · split at h <;> cases h
    · exact ⟨by omega, by omega, by omega⟩
    · exact ⟨by simp; omega, by omega, by simp⟩

theorem mul_zpow_eq {m : Nat} {p q : Int} (h : p ≤ q) :
    (m * 2 ^ q : ℚ) = (m * 2 ^ (q - p).toNat : Nat) * 2 ^ p := by
  have hq : q = (q - p).toNat + p := by omega
  push_cast
  rw [mul_assoc, ← zpow_natCast, ← zpow_add₀ (by norm_num), ← hq]

theorem Fits.unique {m m' : Nat} {q q' : Int} (h : Fits m q) (h' : Fits m' q')
    (heq : (m * 2 ^ q : ℚ) = m' * 2 ^ q') : m = m' ∧ q = q' := by
  have cancel : ∀ {a b : Nat} {p : Int}, ((a : ℚ) * 2 ^ p = b * 2 ^ p) → a = b := by
    intro a b p h
    exact_mod_cast mul_right_cancel₀ (zpow_ne_zero p (by norm_num)) h
  -- with the greater exponent the significand would be too large
  have key : ∀ {a a' : Nat} {p p' : Int}, Fits a p → Fits a' p' →
      (a * 2 ^ p : ℚ) = a' * 2 ^ p' → ¬p < p' := by
    intro a a' p p' ha ha' heq hlt
    rw [mul_zpow_eq (m := a') (Int.le_of_lt hlt)] at heq
    have hgrid : a = a' * 2 ^ (p' - p).toNat := cancel heq
    have hlead : 2 ^ 52 ≤ a' := ha'.leading (Int.lt_of_le_of_lt ha.low hlt)
    have hpow : 2 ^ 1 ≤ 2 ^ (p' - p).toNat := Nat.pow_le_pow_right (by norm_num) (by omega)
    have hsmall := ha.small
    have := Nat.mul_le_mul hlead hpow
    omega
  obtain hlt | rfl | hlt := Int.lt_trichotomy q q'
  · exact absurd hlt (key h h' heq)
  · exact ⟨cancel heq, rfl⟩
  · exact absurd hlt (key h' h heq.symm)

theorem bits_eq (x : Binary64) :
    x.bits.toNat = (if x.negative then 2 ^ 63 else 0) + x.exponent * 2 ^ 52 + x.fraction := by
  have hlt : x.bits.toNat < 2 ^ 64 := x.bits.toNat_lt
  simp only [negative, exponent, fraction, Nat.pow_eq, decide_eq_true_eq]
  split <;> omega

theorem fields_of_datum {x y : Binary64} (h : x.datum = y.datum) (hx : x.datum ≠ .nan) :
    x.negative = y.negative ∧ x.exponent = y.exponent ∧ x.fraction = y.fraction := by
  have hfx : x.fraction < 2 ^ 52 := Nat.mod_lt _ (by norm_num)
  have hfy : y.fraction < 2 ^ 52 := Nat.mod_lt _ (by norm_num)
  simp only [datum, Nat.pow_eq] at h hx
  grind

theorem eq_of_datum {x y : Binary64} (h : x.datum = y.datum) (hx : x.datum ≠ .nan) : x = y := by
  obtain ⟨hneg, hexp, hfrac⟩ := fields_of_datum h hx
  have hbits : x.bits.toNat = y.bits.toNat := by rw [bits_eq x, bits_eq y, hneg, hexp, hfrac]
  cases x
  cases y
  simpa [UInt64.toNat_inj] using hbits

theorem sign_mul_self (negative : Bool) : sign negative * sign negative = 1 := by
  cases negative <;> norm_num [sign]

theorem signed_cast (negative : Bool) (a : Nat) : (signed negative a : ℚ) = sign negative * a := by
  cases negative <;> simp [signed, sign]

theorem dyadic_cast (m : Nat) (q : Int) :
    0 < (dyadic m q).2 ∧ (m * 2 ^ q : ℚ) = (dyadic m q).1 / (dyadic m q).2 := by
  simp only [dyadic, Nat.pow_eq]
  split
  · rename_i hq
    refine ⟨Nat.one_pos, ?_⟩
    simpa using mul_zpow_eq (m := m) hq
  · rename_i hq
    refine ⟨Nat.two_pow_pos _, ?_⟩
    have hq : q = -((-q).toNat : Int) := by omega
    push_cast
    rw [div_eq_mul_inv, ← zpow_natCast, ← zpow_neg, ← hq]

theorem quotient_iff {negative : Bool} {num den : Nat} (hden : 0 < den) {i : Int} :
    (if num % den = 0 then some (signed negative (num / den)) else none) = some i ↔
      sign negative * (num / den : ℚ) = i := by
  have hne : (den : ℚ) ≠ 0 := by exact_mod_cast hden.ne'
  constructor
  · intro h
    obtain ⟨hdvd, h⟩ := Option.ite_none_right_eq_some.1 h
    rw [← Option.some.inj h, signed_cast, Nat.cast_div (Nat.dvd_of_mod_eq_zero hdvd) hne]
  · intro h
    have hint : signed negative num = i * den := by
      rw [← mul_div_assoc, div_eq_iff hne, ← signed_cast] at h
      exact_mod_cast h
    have hnat : num = i.natAbs * den := by
      have := congrArg Int.natAbs hint
      rw [Int.natAbs_mul, Int.natAbs_natCast] at this
      rw [← this]
      cases negative <;> simp [signed]
    have hquot : (signed negative (num / den) : ℚ) = i := by
      rw [signed_cast, Nat.cast_div (Dvd.intro_left _ hnat.symm) hne, h]
    rw [if_pos (by simp [hnat])]
    exact congrArg some (by exact_mod_cast hquot)

theorem integer?_iff {x : Binary64} {i : Int} :
    x.integer? = some i ↔ x.amount? = some (.rational i) := by
  simp only [integer?, amount?]
  cases x.datum with
  | nan => simp
  | infinite negative => simp
  | finite negative m q =>
    obtain ⟨hpos, hval⟩ := dyadic_cast m q
    rw [Option.some.injEq, Amount.rational.injEq, hval]
    exact quotient_iff hpos

theorem eq_of_amount {x y : Binary64} {n : Amount} (hx : x.amount? = some n)
    (hy : y.amount? = some n) (hn : x.integer? = none) : x = y := by
  suffices x.datum = y.datum by
    refine eq_of_datum this fun hnan => ?_
    simp [amount?, hnan] at hx
  have hzero : x.amount? ≠ some (.rational (0 : Int)) := fun h => by
    simp [integer?_iff.2 h] at hn
  simp only [amount?] at hx hy hzero
  cases hdx : x.datum with
  | nan => simp [hdx] at hx
  | infinite negative =>
    rw [hdx] at hx
    cases hx
    cases hdy : y.datum with
    | nan => simp [hdy] at hy
    | infinite negative' => simpa [hdy] using hy.symm
    | finite negative' m' q' => simp [hdy] at hy
  | finite negative m q =>
    rw [hdx] at hx hzero
    cases hx
    cases hdy : y.datum with
    | nan => simp [hdy] at hy
    | infinite negative' => simp [hdy] at hy
    | finite negative' m' q' =>
      have hval : sign negative' * (m' * 2 ^ q') = sign negative * (m * 2 ^ q) := by
        simpa [hdy] using hy
      have hm : 0 < m := Nat.pos_of_ne_zero fun hm => by simp [hm] at hzero
      have hpos : (0 : ℚ) < m * 2 ^ q := by positivity
      have hnonneg : (0 : ℚ) ≤ m' * 2 ^ q' := by positivity
      have hsign : negative' = negative := by
        cases negative <;> cases negative' <;> simp [sign] at hval ⊢ <;> linarith
      subst hsign
      have heq : (m' * 2 ^ q' : ℚ) = m * 2 ^ q := by
        have := congrArg (sign negative' * ·) hval
        simpa [← mul_assoc, sign_mul_self] using this
      obtain ⟨rfl, rfl⟩ := (fits_of_datum hdy).unique (fits_of_datum hdx) heq
      rfl

end Binary64

namespace Key

def amount? : Key → Option Amount
  | bool b => some (.rational (if b then 1 else 0))
  | int i => some (.rational i)
  | float x => x.amount?
  | _ => none

/-- Keys that are equal: numbers that stand for the same, and what has equal parts. -/
inductive Equal : Key → Key → Prop
  | null : Equal null null
  | text (s : String) : Equal (text s) (text s)
  | number {a b : Key} {n : Amount} : a.amount? = some n → b.amount? = some n → Equal a b
  | nil : Equal (tuple []) (tuple [])
  | cons {a b : Key} {as bs : List Key} :
    Equal a b → Equal (tuple as) (tuple bs) → Equal (tuple (a :: as)) (tuple (b :: bs))

mutual

def isProper : Key → Bool
  | nan _ => false
  | float x => !x.isNan
  | tuple ks => areProper ks
  | _ => true

def areProper : List Key → Bool
  | [] => true
  | k :: ks => k.isProper && areProper ks

end

theorem normal_of_amount {k : Key} {i : Int} (h : k.amount? = some (.rational i)) :
    k.normal = int i := by
  cases k with
  | bool b =>
    simp only [amount?, Option.some.injEq, Amount.rational.injEq] at h
    have h : (if b then 1 else 0 : Int) = i := by
      cases b <;> exact_mod_cast h
    simp [normal, ofQuantity, Quantity.ofBool, h]
  | int j =>
    simp only [amount?, Option.some.injEq, Amount.rational.injEq, Int.cast_inj] at h
    rw [normal, h]
    all_goals simp
  | float x => simp [normal, ofQuantity, Quantity.ofFloat, Binary64.integer?_iff.2 h]
  | _ => cases h

theorem float_of_amount {k : Key} {n : Amount} (h : k.amount? = some n)
    (hn : ¬∃ i : Int, n = .rational i) : ∃ x, k = float x ∧ x.integer? = none := by
  cases k with
  | bool b =>
    cases h
    exact absurd ⟨if b then 1 else 0, by cases b <;> simp⟩ hn
  | int i =>
    cases h
    exact absurd ⟨i, rfl⟩ hn
  | float x =>
    refine ⟨x, rfl, Option.eq_none_iff_forall_ne_some.2 fun i hi => hn ⟨i, ?_⟩⟩
    exact Option.some.inj (h.symm.trans (Binary64.integer?_iff.1 hi))
  | _ => cases h

@[simp] theorem amount_normal (k : Key) : k.normal.amount? = k.amount? := by
  cases k with
  | bool b => cases b <;> simp [normal, ofQuantity, Quantity.ofBool, amount?]
  | float x =>
    simp only [normal, Quantity.ofFloat]
    cases h : x.integer? with
    | some i => exact (Binary64.integer?_iff.1 h).symm
    | none => rfl
  | tuple ks => simp [normal, amount?]
  | _ => simp [normal]

theorem Equal.normal {a b : Key} (h : a.Equal b) : a.normal = b.normal := by
  induction h with
  | null => rfl
  | text => rfl
  | @number a b n ha hb =>
    by_cases hn : ∃ i : Int, n = .rational i
    · obtain ⟨i, rfl⟩ := hn
      rw [normal_of_amount ha, normal_of_amount hb]
    · obtain ⟨x, rfl, hx⟩ := float_of_amount ha hn
      obtain ⟨y, rfl, -⟩ := float_of_amount hb hn
      rw [Binary64.eq_of_amount ha hb hx]
  | nil => rfl
  | cons _ _ ih ihs =>
    simp only [Key.normal, normals] at ihs ⊢
    rw [ih, tuple.inj ihs]

theorem Equal.symm {a b : Key} (h : a.Equal b) : b.Equal a := by
  induction h with
  | null => exact .null
  | text s => exact .text s
  | number ha hb => exact .number hb ha
  | nil => exact .nil
  | cons _ _ ih ihs => exact .cons ih ihs

theorem isProper_of_amount {k : Key} {n : Amount} (h : k.amount? = some n) : k.isProper = true := by
  cases k with
  | bool b => rfl
  | int i => rfl
  | float x =>
    simp only [amount?, Binary64.amount?] at h
    cases hx : x.datum <;> simp [isProper, Binary64.isNan, hx] at h ⊢
  | _ => cases h

theorem Equal.isProper {a b : Key} (h : a.Equal b) : a.isProper = true ∧ b.isProper = true := by
  induction h with
  | null => exact ⟨rfl, rfl⟩
  | text => exact ⟨rfl, rfl⟩
  | number ha hb => exact ⟨isProper_of_amount ha, isProper_of_amount hb⟩
  | nil => exact ⟨rfl, rfl⟩
  | cons _ _ ih ihs =>
    exact ⟨Bool.and_eq_true_iff.2 ⟨ih.1, ihs.1⟩, Bool.and_eq_true_iff.2 ⟨ih.2, ihs.2⟩⟩

theorem kind_of_proper {k : Key} (hk : k.isProper = true) :
    (∃ n, k.amount? = some n) ∨ k = null ∨ (∃ s, k = text s) ∨ ∃ ks, k = tuple ks := by
  cases k with
  | bool b => exact .inl ⟨_, rfl⟩
  | int i => exact .inl ⟨_, rfl⟩
  | float x =>
    simp only [amount?, Binary64.amount?]
    cases hx : x.datum with
    | nan => simp [isProper, Binary64.isNan, hx] at hk
    | infinite negative => exact .inl ⟨_, rfl⟩
    | finite negative m q => exact .inl ⟨_, rfl⟩
  | nan => cases hk
  | _ => simp

mutual

theorem equal_of_normal : ∀ {a b : Key}, a.isProper = true → b.isProper = true →
    a.normal = b.normal → a.Equal b
  | a, b, ha, hb, h => by
    have hamount : a.amount? = b.amount? := by rw [← amount_normal a, h, amount_normal b]
    obtain ⟨n, hn⟩ | rfl | ⟨s, rfl⟩ | ⟨as, rfl⟩ := kind_of_proper ha
    · exact .number hn (hamount ▸ hn)
    all_goals obtain ⟨n, hn⟩ | rfl | ⟨t, rfl⟩ | ⟨bs, rfl⟩ := kind_of_proper hb
    case inr.inl.inr.inl => exact .null
    case inr.inr.inl.inr.inr.inl =>
      obtain rfl : s = t := text.inj h
      exact .text s
    case inr.inr.inr.inr.inr.inr => exact equals_of_normals ha hb (tuple.inj h)
    all_goals first
      | exact nomatch hamount.trans hn
      | exact nomatch h

theorem equals_of_normals : ∀ {as bs : List Key}, areProper as = true → areProper bs = true →
    normals as = normals bs → (tuple as).Equal (tuple bs)
  | [], [], _, _, _ => .nil
  | [], _ :: _, _, _, h => by cases h
  | _ :: _, [], _, _, h => by cases h
  | a :: as, b :: bs, ha, hb, h => by
    obtain ⟨ha, has⟩ := Bool.and_eq_true_iff.1 ha
    obtain ⟨hb, hbs⟩ := Bool.and_eq_true_iff.1 hb
    obtain ⟨h, hs⟩ := List.cons.inj h
    exact .cons (equal_of_normal ha hb h) (equals_of_normals has hbs hs)

end

/-- Looking up goes by equality of keys. -/
theorem same_iff_equal {a b : Key} (ha : a.isProper = true) (hb : b.isProper = true) :
    a.same b = true ↔ a.Equal b :=
  same_iff.trans ⟨equal_of_normal ha hb, Equal.normal⟩

mutual

theorem toValue_of_ofValue {source : Nat} : ∀ {v : Value} {k : Key},
    ofValue source v = .ok k → k.isProper = true → k.toValue = v
  | .null, _, rfl, _ => rfl
  | .bool _, _, rfl, _ => rfl
  | .int _, _, rfl, _ => rfl
  | .float x, k, h, hk => by
    obtain rfl := Except.ok.inj h
    split at hk
    · cases hk
    · rename_i hx
      rw [if_neg hx, toValue]
  | .text _, _, rfl, _ => rfl
  | .tuple vs, k, h, hk => by
    simp only [ofValue] at h
    cases hvs : ofValues source vs with
    | error what =>
      rw [hvs] at h
      cases h
    | ok ks =>
      rw [hvs] at h
      obtain rfl := Except.ok.inj h
      rw [toValue, toValues_of_ofValues hvs hk]

theorem toValues_of_ofValues {source : Nat} : ∀ {vs : List Value} {ks : List Key},
    ofValues source vs = .ok ks → areProper ks = true → toValues ks = vs
  | [], _, rfl, _ => rfl
  | v :: vs, ks, h, hks => by
    simp only [ofValues] at h
    cases hv : ofValue source v with
    | error what =>
      rw [hv] at h
      cases h
    | ok k =>
      cases hvs : ofValues source vs with
      | error what =>
        rw [hv, hvs] at h
        cases h
      | ok ks' =>
        rw [hv, hvs] at h
        obtain rfl := Except.ok.inj h
        obtain ⟨hk, hks⟩ := Bool.and_eq_true_iff.1 hks
        rw [toValues, toValue_of_ofValue hv hk, toValues_of_ofValues hvs hks]

end

mutual

def isFrom (source : Nat) : Key → Bool
  | nan s => s == source
  | float x => !x.isNan
  | tuple ks => areFrom source ks
  | _ => true

def areFrom (source : Nat) : List Key → Bool
  | [] => true
  | k :: ks => k.isFrom source && areFrom source ks

end

mutual

theorem isFrom_of_ofValue {source : Nat} : ∀ {v : Value} {k : Key},
    ofValue source v = .ok k → k.isFrom source = true
  | .null, _, rfl => rfl
  | .bool _, _, rfl => rfl
  | .int _, _, rfl => rfl
  | .float x, k, h => by
    obtain rfl := Except.ok.inj h
    cases hx : x.isNan <;> simp [isFrom, hx]
  | .text _, _, rfl => rfl
  | .tuple vs, k, h => by
    simp only [ofValue] at h
    cases hvs : ofValues source vs with
    | error what =>
      rw [hvs] at h
      cases h
    | ok ks =>
      rw [hvs] at h
      obtain rfl := Except.ok.inj h
      exact areFrom_of_ofValues hvs

theorem areFrom_of_ofValues {source : Nat} : ∀ {vs : List Value} {ks : List Key},
    ofValues source vs = .ok ks → areFrom source ks = true
  | [], _, rfl => rfl
  | v :: vs, ks, h => by
    simp only [ofValues] at h
    cases hv : ofValue source v with
    | error what =>
      rw [hv] at h
      cases h
    | ok k =>
      cases hvs : ofValues source vs with
      | error what =>
        rw [hv, hvs] at h
        cases h
      | ok ks' =>
        rw [hv, hvs] at h
        obtain rfl := Except.ok.inj h
        exact Bool.and_eq_true_iff.2 ⟨isFrom_of_ofValue hv, areFrom_of_ofValues hvs⟩

end

mutual

@[simp] theorem isFrom_normal (source : Nat) : ∀ k : Key, k.normal.isFrom source = k.isFrom source
  | null => rfl
  | bool _ => rfl
  | int _ => rfl
  | float x => by
    simp only [normal, Quantity.ofFloat]
    cases hx : x.integer? with
    | none => rfl
    | some i =>
      cases hd : x.datum <;> simp [Binary64.integer?, hd] at hx
      simp [ofQuantity, isFrom, Binary64.isNan, hd]
  | nan _ => rfl
  | text _ => rfl
  | tuple ks => by simp only [normal, isFrom, areFrom_normals source ks]

theorem areFrom_normals (source : Nat) : ∀ ks, areFrom source (normals ks) = areFrom source ks
  | [] => rfl
  | k :: ks => by simp only [normals, areFrom, isFrom_normal source k, areFrom_normals source ks]

end

mutual

theorem isProper_of_isFrom {source source' : Nat} (hne : source ≠ source') : ∀ {k : Key},
    k.isFrom source = true → k.isFrom source' = true → k.isProper = true
  | null, _, _ => rfl
  | bool _, _, _ => rfl
  | int _, _, _ => rfl
  | float _, h, _ => h
  | nan _, h, h' => absurd ((beq_iff_eq.1 h).symm.trans (beq_iff_eq.1 h')) hne
  | text _, _, _ => rfl
  | tuple _, h, h' => areProper_of_areFrom hne h h'

theorem areProper_of_areFrom {source source' : Nat} (hne : source ≠ source') : ∀ {ks : List Key},
    areFrom source ks = true → areFrom source' ks = true → areProper ks = true
  | [], _, _ => rfl
  | k :: ks, h, h' => by
    obtain ⟨hk, hks⟩ := Bool.and_eq_true_iff.1 h
    obtain ⟨hk', hks'⟩ := Bool.and_eq_true_iff.1 h'
    exact Bool.and_eq_true_iff.2
      ⟨isProper_of_isFrom hne hk hk', areProper_of_areFrom hne hks hks'⟩

end

theorem isProper_of_same {source source' : Nat} {v v' : Value} {k k' : Key}
    (hne : source ≠ source') (hk : ofValue source v = .ok k) (hk' : ofValue source' v' = .ok k')
    (h : k.same k' = true) : k.isProper = true := by
  refine isProper_of_isFrom hne (isFrom_of_ofValue hk) ?_
  rw [← isFrom_normal, same_iff.1 h, isFrom_normal]
  exact isFrom_of_ofValue hk'

mutual

theorem ofValue_toValue (source : Nat) : ∀ {k : Key}, k.isProper = true →
    ofValue source k.toValue = .ok k
  | null, _ => rfl
  | bool _, _ => rfl
  | int _, _ => rfl
  | float x, h => by
    have hx : x.isNan = false := by simpa [isProper] using h
    simp [toValue, ofValue, hx]
  | text _, _ => rfl
  | tuple ks, h => by
    simp only [toValue, ofValue, ofValues_toValues source h]
    rfl

theorem ofValues_toValues (source : Nat) : ∀ {ks : List Key}, areProper ks = true →
    ofValues source (toValues ks) = .ok ks
  | [], _ => rfl
  | k :: ks, h => by
    obtain ⟨hk, hks⟩ := Bool.and_eq_true_iff.1 h
    simp only [toValues, ofValues, ofValue_toValue source hk, ofValues_toValues source hks]
    rfl

end

mutual

theorem map_toValue_ofValue (source source' : Nat) : ∀ v : Value,
    (ofValue source v).map toValue = (ofValue source' v).map toValue
  | .null => rfl
  | .bool _ => rfl
  | .int _ => rfl
  | .float x => by
    simp only [ofValue]
    split <;> rfl
  | .text _ => rfl
  | .tuple vs => by
    have h := map_toValues_ofValues source source' vs
    simp only [ofValue]
    cases hvs : ofValues source vs <;> cases hvs' : ofValues source' vs <;>
      simp_all [Except.map, toValue]
  | .list _ => rfl
  | .dict _ => rfl

theorem map_toValues_ofValues (source source' : Nat) : ∀ vs : List Value,
    (ofValues source vs).map toValues = (ofValues source' vs).map toValues
  | [] => rfl
  | v :: vs => by
    have h := map_toValue_ofValue source source' v
    have hs := map_toValues_ofValues source source' vs
    simp only [ofValues]
    cases hv : ofValue source v <;> cases hv' : ofValue source' v <;>
      cases hvs : ofValues source vs <;> cases hvs' : ofValues source' vs <;>
      simp_all [Except.map, toValues, bind, Except.bind, pure, Except.pure]

end

theorem ofValue_of_isProper {source : Nat} {v : Value} {k : Key} (h : ofValue source v = .ok k)
    (hk : k.isProper = true) (source' : Nat) : ofValue source' v = .ok k := by
  rw [← toValue_of_ofValue h hk, ofValue_toValue source' hk]

theorem equal_equivalence :
    Equivalence fun a b : { k : Key // k.isProper = true } => a.1.Equal b.1 where
  refl a := (same_iff_equal a.2 a.2).1 (same_refl a.1)
  symm {a b} h := (same_iff_equal b.2 a.2).1 (same_symm ((same_iff_equal a.2 b.2).2 h))
  trans {a b c} hab hbc := (same_iff_equal a.2 c.2).1
    (same_trans ((same_iff_equal a.2 b.2).2 hab) ((same_iff_equal b.2 c.2).2 hbc))

end Key

end Lapse
