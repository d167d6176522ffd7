import Mathlib.Data.List.TakeWhile
import Mathlib.Data.Nat.Digits.Lemmas
import Lapse.Settings

namespace Lapse

structure Digit where
  start : Nat
  value : Nat
  char : Char
  start_mem : start ∈ digitZeros
  value_lt : value < 10
  toNat_char : char.toNat = start + value

inductive Sign
  | none
  | plus
  | minus
  deriving DecidableEq

def Sign.text : Sign → List Char
  | none => []
  | plus => ['+']
  | minus => ['-']

namespace Digit

def run (first : Digit) : List (Bool × Digit) → List Char
  | [] => [first.char]
  | (true, d) :: rest => first.char :: '_' :: d.run rest
  | (false, d) :: rest => first.char :: d.run rest

def values (first : Digit) (rest : List (Bool × Digit)) : List Nat :=
  first.value :: rest.map (·.2.value)

end Digit

structure Numeral where
  before : List Char
  sign : Sign
  first : Digit
  rest : List (Bool × Digit)
  after : List Char
  before_blank : ∀ c ∈ before, isBlank c = true
  after_blank : ∀ c ∈ after, isBlank c = true

namespace Numeral

def digits (m : Numeral) : List Nat := m.first.values m.rest

def text (m : Numeral) : String :=
  String.ofList (m.before ++ (m.sign.text ++ m.first.run m.rest) ++ m.after)

def value (m : Numeral) : Int :=
  if m.sign = .minus then -(Nat.ofDigits 10 m.digits.reverse : Nat)
  else (Nat.ofDigits 10 m.digits.reverse : Nat)

/-- The numeral has the decimal digits of the integer, perhaps after zeros, and its sign; a zero may
have any sign. -/
structure Renders (m : Numeral) (n : Int) : Prop where
  digits : ∃ zeros, m.digits = List.replicate zeros 0 ++ (Nat.digits 10 n.natAbs).reverse
  nonpos : m.sign = .minus → n ≤ 0
  nonneg : m.sign ≠ .minus → 0 ≤ n

end Numeral

theorem digitZeros_apart : ∀ a ∈ digitZeros, ∀ b ∈ digitZeros, a < b → a + 10 ≤ b := by
  decide +kernel

theorem digitZeros_not_blank : ∀ start ∈ digitZeros, ∀ range ∈ blankRanges,
    range.2 < start ∨ start + 10 ≤ range.1 := by
  decide +kernel

theorem digitValue?_eq_some_iff {c : Char} {v : Nat} :
    digitValue? c = some v ↔ ∃ start ∈ digitZeros, v < 10 ∧ c.toNat = start + v := by
  have found : ∀ {a}, (digitZeros.find? fun a => a ≤ c.toNat && c.toNat < a + 10) = some a →
      a ∈ digitZeros ∧ a ≤ c.toNat ∧ c.toNat < a + 10 := by
    intro a h
    exact ⟨List.mem_of_find?_eq_some h, by simpa using List.find?_some h⟩
  constructor
  · intro h
    obtain ⟨a, ha, rfl⟩ := Option.map_eq_some_iff.1 h
    obtain ⟨hmem, hle, hlt⟩ := found ha
    exact ⟨a, hmem, by omega, by omega⟩
  · rintro ⟨start, hmem, hv, hc⟩
    have hsome : (digitZeros.find? fun a => a ≤ c.toNat && c.toNat < a + 10).isSome = true := by
      refine List.find?_isSome.2 ⟨start, hmem, ?_⟩
      simp only [Bool.and_eq_true, decide_eq_true_eq]
      omega
    obtain ⟨a, ha⟩ := Option.isSome_iff_exists.1 hsome
    obtain ⟨hmem', hle, hlt⟩ := found ha
    have heq : a = start := by
      have := digitZeros_apart a hmem' start hmem
      have := digitZeros_apart start hmem a hmem'
      omega
    rw [digitValue?, ha, heq, Option.map_some, hc, Nat.add_sub_cancel_left]

namespace Digit

variable {first d : Digit} {rest : List (Bool × Digit)} {c : Char}

@[simp] theorem digitValue?_char (d : Digit) : digitValue? d.char = some d.value :=
  digitValue?_eq_some_iff.2 ⟨d.start, d.start_mem, d.value_lt, d.toNat_char⟩

theorem exists_of_digitValue? {v : Nat} (h : digitValue? c = some v) :
    ∃ d : Digit, d.char = c ∧ d.value = v := by
  obtain ⟨start, hmem, hv, hc⟩ := digitValue?_eq_some_iff.1 h
  exact ⟨⟨start, v, c, hmem, hv, hc⟩, rfl, rfl⟩

theorem char_ne (d : Digit) (h : digitValue? c = none) : d.char ≠ c := by
  rintro rfl
  simp at h

@[simp] theorem isBlank_char (d : Digit) : isBlank d.char = false := by
  refine List.any_eq_false.2 fun range hrange => ?_
  have hapart := digitZeros_not_blank d.start d.start_mem range hrange
  have hchar := d.toNat_char
  have hlt := d.value_lt
  simp only [Bool.and_eq_true, decide_eq_true_eq]
  omega

theorem isRunChar_of_mem_run (h : c ∈ first.run rest) : isRunChar c = true := by
  induction rest generalizing first with
  | nil =>
    obtain rfl := List.mem_singleton.1 h
    simp [isRunChar, isDigit]
  | cons x rest ih =>
    obtain ⟨apart, d⟩ := x
    cases apart <;> simp only [run, List.mem_cons] at h
    · obtain rfl | h := h
      · simp [isRunChar, isDigit]
      · exact ih h
    · obtain rfl | rfl | h := h
      · simp [isRunChar, isDigit]
      · rfl
      · exact ih h

theorem run_eq_cons (first : Digit) (rest : List (Bool × Digit)) :
    ∃ cs, first.run rest = first.char :: cs := by
  cases rest with
  | nil => exact ⟨[], rfl⟩
  | cons x rest =>
    obtain ⟨apart, d⟩ := x
    cases apart <;> exact ⟨_, rfl⟩

theorem run_eq_concat (first : Digit) (rest : List (Bool × Digit)) :
    ∃ cs d, first.run rest = cs ++ [Digit.char d] := by
  induction rest generalizing first with
  | nil => exact ⟨[], first, rfl⟩
  | cons x rest ih =>
    obtain ⟨apart, d⟩ := x
    obtain ⟨cs, last, h⟩ := ih d
    cases apart
    · exact ⟨first.char :: cs, last, by simp [run, h]⟩
    · exact ⟨first.char :: '_' :: cs, last, by simp [run, h]⟩

theorem digitRun?_run (first : Digit) (rest : List (Bool × Digit)) :
    digitRun? (first.run rest) = some (first.values rest) := by
  induction rest generalizing first with
  | nil => simp [run, digitRun?, values]
  | cons x rest ih =>
    obtain ⟨apart, d⟩ := x
    cases apart with
    | true => simp [run, digitRun?, ih d, values]
    | false =>
      obtain ⟨cs, hcs⟩ := run_eq_cons d rest
      have hne : d.char ≠ '_' := d.char_ne (by decide)
      rw [run, hcs, digitRun?.eq_4 _ _ (by simp) (by simpa using hne), ← hcs, ih d]
      simp [values]

theorem exists_run {cs : List Char} {ds : List Nat} (h : digitRun? cs = some ds) :
    ∃ (first : Digit) (rest : List (Bool × Digit)),
      cs = first.run rest ∧ ds = first.values rest := by
  fun_induction digitRun? cs generalizing ds with
  | case1 => cases h
  | case2 c =>
    obtain ⟨v, hv, rfl⟩ := Option.map_eq_some_iff.1 h
    obtain ⟨d, rfl, rfl⟩ := exists_of_digitValue? hv
    exact ⟨d, [], rfl, rfl⟩
  | case3 c cs ih =>
    obtain ⟨v, hv, vs, hvs, rfl⟩ : ∃ v, digitValue? c = some v ∧ ∃ vs, digitRun? cs = some vs ∧
        v :: vs = ds := by simpa [bind, Option.bind_eq_some_iff] using h
    obtain ⟨d, rfl, rfl⟩ := exists_of_digitValue? hv
    obtain ⟨next, rest, rfl, rfl⟩ := ih hvs
    exact ⟨d, (true, next) :: rest, rfl, rfl⟩
  | case4 c cs _ _ ih =>
    obtain ⟨v, hv, vs, hvs, rfl⟩ : ∃ v, digitValue? c = some v ∧ ∃ vs, digitRun? cs = some vs ∧
        v :: vs = ds := by simpa [bind, Option.bind_eq_some_iff] using h
    obtain ⟨d, rfl, rfl⟩ := exists_of_digitValue? hv
    obtain ⟨next, rest, rfl, rfl⟩ := ih hvs
    exact ⟨d, (false, next) :: rest, rfl, rfl⟩

end Digit

structure Bare (p : Char → Bool) (cs : List Char) : Prop where
  head : ∀ c ∈ cs.head?, p c = false
  last : ∀ c ∈ cs.getLast?, p c = false

section Trimming

variable {p q : Char → Bool} {cs before after : List Char}

theorem dropWhile_eq_self (h : ∀ c ∈ cs.head?, p c = false) : cs.dropWhile p = cs := by
  cases cs with
  | nil => rfl
  | cons c cs => simp [h c rfl]

theorem head_dropWhile (p : Char → Bool) (cs : List Char) :
    ∀ c ∈ (cs.dropWhile p).head?, p c = false := by
  intro c hc
  have := List.head?_dropWhile_not p cs
  rwa [show (cs.dropWhile p).head? = some c from hc] at this

theorem trimBy_append (hb : ∀ c ∈ before, p c = true) (ha : ∀ c ∈ after, p c = true)
    (h : Bare p cs) : trimBy p (before ++ cs ++ after) = cs := by
  have ha' : ∀ x ∈ after.reverse, p x = true := by simpa using ha
  rcases cs with _ | ⟨c, cs⟩
  · have hall : ∀ x ∈ before ++ [] ++ after, p x = true := by
      simpa [or_imp, forall_and] using ⟨hb, ha⟩
    rw [trimBy, List.dropWhile_eq_nil_iff.2 hall]
    rfl
  · have hc : p c = false := h.head c rfl
    rw [trimBy, List.append_assoc, List.dropWhile_append_of_pos hb, List.cons_append,
      List.dropWhile_cons_of_neg (by simp [hc]), ← List.cons_append, List.reverse_append,
      List.dropWhile_append_of_pos ha', dropWhile_eq_self, List.reverse_reverse]
    rw [List.head?_reverse]
    exact h.last

theorem exists_trimBy (p : Char → Bool) (cs : List Char) : ∃ before after,
    cs = before ++ trimBy p cs ++ after ∧ (∀ c ∈ before, p c = true) ∧
      (∀ c ∈ after, p c = true) ∧ Bare p (trimBy p cs) := by
  have cut : ∀ xs : List Char, ∃ gone, xs = gone ++ xs.dropWhile p ∧ ∀ c ∈ gone, p c = true :=
    fun xs => ⟨xs.takeWhile p, List.takeWhile_append_dropWhile.symm,
      fun _ => List.mem_takeWhile_imp⟩
  obtain ⟨before, hbefore, hb⟩ := cut cs
  obtain ⟨after, hafter, ha⟩ := cut (cs.dropWhile p).reverse
  have hrest : cs.dropWhile p = trimBy p cs ++ after.reverse := by
    have := congrArg List.reverse hafter
    rwa [List.reverse_reverse, List.reverse_append] at this
  refine ⟨before, after.reverse, ?_, hb, by simpa using ha, ?_, ?_⟩
  · rw [List.append_assoc, ← hrest, ← hbefore]
  · intro c hc
    refine head_dropWhile p cs c ?_
    rw [hrest, List.head?_append, show (trimBy p cs).head? = some c from hc]
    rfl
  · intro c hc
    rw [trimBy, List.getLast?_reverse] at hc
    exact head_dropWhile p _ c hc

theorem trimBy_eq_self (h : Bare p cs) : trimBy p cs = cs := by
  have hnil : ∀ c ∈ ([] : List Char), p c = true := by simp
  simpa using trimBy_append hnil hnil h

theorem Bare.mono (h : Bare p cs) (hq : ∀ c, q c = true → p c = true) : Bare q cs := by
  have stays : ∀ {c}, p c = false → q c = false := by
    intro c hc
    by_contra hne
    rw [hq c (by simpa using hne)] at hc
    cases hc
  exact ⟨fun c hc => stays (h.head c hc), fun c hc => stays (h.last c hc)⟩

end Trimming

section Reading

variable {first : Digit} {rest : List (Bool × Digit)} {cs : List Char} {n : Int}

theorem isBlank_of_isNumeralBlank (c : Char) (h : isNumeralBlank c = true) : isBlank c = true :=
  (Bool.and_eq_true_iff.1 h).1

theorem isBlank_of_mem_sign {s : Sign} {c : Char} (h : c ∈ s.text) : isBlank c = false := by
  cases s <;> simp [Sign.text] at h <;> subst h <;> decide

theorem bare_run (s : Sign) (first : Digit) (rest : List (Bool × Digit)) :
    Bare isBlank (s.text ++ first.run rest) where
  head c hc := by
    rw [List.head?_append] at hc
    obtain ⟨cs, hcs⟩ := first.run_eq_cons rest
    cases hs : s.text with
    | nil =>
      obtain rfl : first.char = c := by simpa [hs, hcs] using hc
      exact first.isBlank_char
    | cons d ds =>
      obtain rfl : d = c := by simpa [hs] using hc
      exact isBlank_of_mem_sign (s := s) (by simp [hs])
  last c hc := by
    obtain ⟨cs, d, hcs⟩ := first.run_eq_concat rest
    obtain rfl : d.char = c := by simpa [hcs] using hc
    exact d.isBlank_char

theorem splitSign_run (s : Sign) (first : Digit) (rest : List (Bool × Digit)) :
    splitSign (s.text ++ first.run rest) = (decide (s = .minus), first.run rest) := by
  cases s with
  | plus => rfl
  | minus => rfl
  | none =>
    obtain ⟨cs, hcs⟩ := first.run_eq_cons rest
    have hminus : first.char ≠ '-' := first.char_ne (by decide)
    have hplus : first.char ≠ '+' := first.char_ne (by decide)
    simp only [Sign.text, List.nil_append, hcs]
    rw [splitSign.eq_3 _ (by simpa using hminus) (by simpa using hplus)]
    rfl

theorem exists_sign (cs : List Char) : ∃ s : Sign, cs = s.text ++ (splitSign cs).2 ∧
    (splitSign cs).1 = decide (s = .minus) := by
  fun_cases splitSign cs
  · exact ⟨.minus, rfl, rfl⟩
  · exact ⟨.plus, rfl, rfl⟩
  · exact ⟨.none, rfl, rfl⟩

theorem ofDigits_eq (ds : List Nat) : ofDigits ds = Nat.ofDigits 10 ds.reverse := by
  induction ds using List.reverseRecOn with
  | nil => rfl
  | append_singleton ds d ih =>
    rw [ofDigits] at ih
    rw [ofDigits, List.foldl_append, ih, List.reverse_append, List.reverse_singleton,
      List.singleton_append, Nat.ofDigits_cons, List.foldl_cons, List.foldl_nil, Nat.add_comm]

theorem readSigned_run (s : Sign) (h : (first.values rest).length ≤ digitLimit) :
    readSigned (s.text ++ first.run rest) =
      .ok (applySign (decide (s = .minus)) (ofDigits (first.values rest))) := by
  have hall : ∀ c ∈ first.run rest, isRunChar c = true := fun _ => Digit.isRunChar_of_mem_run
  simp only [readSigned, splitSign_run, List.takeWhile_eq_self_iff.2 hall,
    List.dropWhile_eq_nil_iff.2 hall, Digit.digitRun?_run, if_neg (Nat.not_lt.2 h), if_true]

theorem exists_run_of_readSigned (h : readSigned cs = .ok n) :
    ∃ (s : Sign) (first : Digit) (rest : List (Bool × Digit)),
      cs = s.text ++ first.run rest ∧ (first.values rest).length ≤ digitLimit := by
  obtain ⟨s, hcs, -⟩ := exists_sign cs
  revert h
  simp only [readSigned]
  split
  · simp
  · rename_i ds hrun
    obtain ⟨first, rest, htake, rfl⟩ := Digit.exists_run hrun
    split
    · simp
    · rename_i hlimit
      split
      · rename_i hdrop
        refine fun _ => ⟨s, first, rest, ?_, Nat.not_lt.1 hlimit⟩
        rw [← htake, ← List.append_nil (List.takeWhile _ _), ← hdrop,
          List.takeWhile_append_dropWhile, ← hcs]
      · simp

end Reading

namespace Numeral

variable {m : Numeral} {raw : Option String} {default n : Int}

theorem value_eq (m : Numeral) :
    m.value = applySign (decide (m.sign = .minus)) (ofDigits m.digits) := by
  by_cases h : m.sign = .minus <;> simp [value, applySign, ofDigits_eq, h]

theorem Renders.value_eq (h : m.Renders n) : m.value = n := by
  obtain ⟨⟨zeros, hdigits⟩, hnonpos, hnonneg⟩ := h
  have habs : Nat.ofDigits 10 m.digits.reverse = n.natAbs := by
    rw [hdigits, List.reverse_append, List.reverse_reverse, List.reverse_replicate,
      Nat.ofDigits_append_replicate_zero, Nat.ofDigits_digits]
  by_cases hs : m.sign = .minus
  · have := hnonpos hs
    simp only [value, hs, if_true, habs]
    omega
  · have := hnonneg hs
    simp only [value, hs, if_false, habs]
    omega

theorem trimBy_text (m : Numeral) :
    trimBy isBlank m.text.toList = m.sign.text ++ m.first.run m.rest := by
  rw [text, String.toList_ofList]
  exact trimBy_append m.before_blank m.after_blank (bare_run ..)

theorem numberOr_readInteger (default : Int) (raw : Option String) :
    numberOr (fun s => (readInteger s).toOption) default raw =
      ((readSigned (trimBy isBlank (raw.getD "").toList)).toOption).getD default := by
  obtain ⟨-, -, -, -, -, hbare⟩ := exists_trimBy isBlank (raw.getD "").toList
  have hagain := trimBy_eq_self (hbare.mono isBlank_of_isNumeralBlank)
  rw [numberOr, readInteger, String.toList_ofList, hagain]
  split
  · rename_i hnil
    rw [hnil]
    rfl
  · rfl

theorem numberOr_text (h : m.digits.length ≤ digitLimit) (default : Int) :
    numberOr (fun s => (readInteger s).toOption) default (some m.text) = m.value := by
  rw [numberOr_readInteger, Option.getD_some, m.trimBy_text, readSigned_run m.sign h, m.value_eq]
  rfl

theorem exists_text {s : String} (h : readSigned (trimBy isBlank s.toList) = .ok n) :
    ∃ m : Numeral, m.text = s ∧ m.digits.length ≤ digitLimit := by
  obtain ⟨before, after, hs, hb, ha, -⟩ := exists_trimBy isBlank s.toList
  obtain ⟨sign, first, rest, htrim, hlimit⟩ := exists_run_of_readSigned h
  refine ⟨⟨before, sign, first, rest, after, hb, ha⟩, ?_, hlimit⟩
  rw [text, ← htrim, ← hs, String.ofList_toList]

theorem numberOr_eq_default (h : ∀ m : Numeral, raw = some m.text → digitLimit < m.digits.length)
    (default : Int) : numberOr (fun s => (readInteger s).toOption) default raw = default := by
  rw [numberOr_readInteger]
  cases hread : readSigned (trimBy isBlank (raw.getD "").toList) with
  | error u => rfl
  | ok n =>
    cases raw with
    | none => cases hread
    | some s =>
      obtain ⟨m, rfl, hlimit⟩ := exists_text hread
      exact absurd (h m rfl) (Nat.not_lt.2 hlimit)

end Numeral

section Decimal

theorem toNat_digitChar : ∀ v < 10, (Nat.digitChar v).toNat = 0x30 + v := by decide

def Digit.ascii (v : Nat) (h : v < 10) : Digit where
  start := 0x30
  value := v
  char := Nat.digitChar v
  start_mem := by decide
  value_lt := h
  toNat_char := toNat_digitChar v h

theorem Digit.run_concat (first : Digit) (rest : List (Bool × Digit)) (d : Digit) :
    first.run (rest ++ [(false, d)]) = first.run rest ++ [d.char] := by
  induction rest generalizing first with
  | nil => rfl
  | cons x rest ih =>
    obtain ⟨apart, next⟩ := x
    cases apart <;> simp [run, ih next]

theorem Digit.values_concat (first : Digit) (rest : List (Bool × Digit)) (d : Digit) :
    first.values (rest ++ [(false, d)]) = first.values rest ++ [d.value] := by
  simp [values]

theorem exists_run_toDigits (n : Nat) : ∃ (first : Digit) (rest : List (Bool × Digit)),
    first.run rest = Nat.toDigits 10 n ∧
      first.values rest = if n = 0 then [0] else (Nat.digits 10 n).reverse := by
  induction n using Nat.strongRecOn with
  | ind n ih =>
    by_cases hn : n < 10
    · refine ⟨.ascii n hn, [], (Nat.toDigits_of_lt_base hn).symm, ?_⟩
      cases n with
      | zero => rfl
      | succ n =>
        rw [if_neg (Nat.succ_ne_zero n), Nat.digits_of_lt 10 (n + 1) (Nat.succ_ne_zero n) hn]
        rfl
    · obtain ⟨first, rest, hrun, hvalues⟩ := ih (n / 10) (by omega)
      refine ⟨first, rest ++ [(false, .ascii (n % 10) (Nat.mod_lt n (by decide)))], ?_, ?_⟩
      · rw [Digit.run_concat, hrun, Nat.toDigits_of_base_le (by decide) (Nat.not_lt.1 hn)]
        rfl
      · have hdigits : Nat.digits 10 n = n % 10 :: Nat.digits 10 (n / 10) :=
          Nat.digits_def' (by decide) (by omega)
        rw [Digit.values_concat, hvalues, if_neg (by omega), if_neg (by omega), hdigits,
          List.reverse_cons]
        rfl

theorem toString_eq (n : Int) :
    toString n = (if n < 0 then "-" else "") ++ Nat.repr n.natAbs := by
  cases n with
  | ofNat n => simp [toString, Int.repr, show ¬(n : Int) < 0 by omega]
  | negSucc n => simp [toString, Int.repr]

theorem Numeral.exists_toString (n : Int) : ∃ m : Numeral, m.text = toString n ∧ m.Renders n ∧
    m.digits.length = max 1 (Nat.digits 10 n.natAbs).length := by
  obtain ⟨first, rest, hrun, hvalues⟩ := exists_run_toDigits n.natAbs
  let m : Numeral :=
    ⟨[], if n < 0 then .minus else .none, first, rest, [], by simp, by simp⟩
  have hdigits : m.digits = if n.natAbs = 0 then [0] else (Nat.digits 10 n.natAbs).reverse :=
    hvalues
  have htext : m.text = toString n := by
    rw [toString_eq, Nat.repr_eq_ofList_toDigits, ← hrun]
    by_cases hn : n < 0 <;> simp [m, text, Sign.text, hn, String.ofList_cons]
  refine ⟨m, htext, ⟨?_, fun hs => ?_, fun hs => ?_⟩, ?_⟩
  · by_cases hzero : n.natAbs = 0
    · exact ⟨1, by simp [hdigits, hzero]⟩
    · exact ⟨0, by simp [hdigits, hzero]⟩
  · by_contra hn
    simp [m, show ¬n < 0 by omega] at hs
  · by_contra hn
    simp [m, show n < 0 by omega] at hs
  · by_cases hzero : n.natAbs = 0
    · simp [hdigits, hzero]
    · have hpos : 1 ≤ (Nat.digits 10 n.natAbs).length :=
        List.length_pos_iff.2 (Nat.digits_ne_nil_iff_ne_zero.2 hzero)
      rw [hdigits, if_neg hzero, List.length_reverse, Nat.max_eq_right hpos]

end Decimal

inductive Numberless : Option String → Prop
  | unset : Numberless none
  | blank {s : String} : (∀ c ∈ s.toList, isBlank c = true) → Numberless (some s)
  | malformed {s : String} : (∀ m : Numeral, m.text = s → digitLimit < m.digits.length) →
    Numberless (some s)

/-- What an integer variable gives that has this text, or is not set, for every default. -/
structure Exactly (raw : Option String) (given : Int → Int) : Prop where
  denoted : ∀ m : Numeral, raw = some m.text → m.digits.length ≤ digitLimit →
    ∀ default, given default = m.value
  restored : ∀ (m : Numeral) (n : Int), m.Renders n → raw = some m.text →
    m.digits.length ≤ digitLimit → ∀ default, given default = n
  written : ∀ n : Int, (Nat.digits 10 n.natAbs).length ≤ digitLimit → raw = some (toString n) →
    ∀ default, given default = n
  defaulted : Numberless raw → ∀ default, given default = default
  default_iff : (∀ default, given default = default) ↔ Numberless raw

theorem Numeral.not_numberless {m : Numeral} (h : m.digits.length ≤ digitLimit) :
    ¬Numberless (some m.text) := by
  rintro (_ | hblank | hlimit)
  · have hnil := List.dropWhile_eq_nil_iff.2 hblank
    have htrim := m.trimBy_text
    obtain ⟨cs, hcs⟩ := m.first.run_eq_cons m.rest
    rw [trimBy, hnil] at htrim
    simp [hcs] at htrim
  · exact Nat.not_lt.2 h (hlimit m rfl)

theorem numberOr_exactly (raw : Option String) :
    Exactly raw fun default => numberOr (fun s => (readInteger s).toOption) default raw := by
  have denoted : ∀ m : Numeral, raw = some m.text → m.digits.length ≤ digitLimit →
      ∀ default, numberOr (fun s => (readInteger s).toOption) default raw = m.value := by
    rintro m rfl h
    exact Numeral.numberOr_text h
  have restored : ∀ (m : Numeral) (n : Int), m.Renders n → raw = some m.text →
      m.digits.length ≤ digitLimit →
      ∀ default, numberOr (fun s => (readInteger s).toOption) default raw = n := by
    intro m n hn hm h default
    rw [denoted m hm h, hn.value_eq]
  have defaulted : Numberless raw →
      ∀ default, numberOr (fun s => (readInteger s).toOption) default raw = default := by
    refine fun h => Numeral.numberOr_eq_default fun m hm => ?_
    subst hm
    by_contra hlimit
    exact Numeral.not_numberless (Nat.not_lt.1 hlimit) h
  constructor
  case denoted => exact denoted
  case restored => exact restored
  case written =>
    intro n h hraw
    obtain ⟨m, htext, hn, hdigits⟩ := Numeral.exists_toString n
    refine restored m n hn (by rw [hraw, htext]) ?_
    rw [hdigits]
    exact Nat.max_le.2 ⟨by decide, h⟩
  case defaulted => exact defaulted
  case default_iff =>
    refine ⟨fun h => ?_, defaulted⟩
    cases raw with
    | none => exact .unset
    | some s =>
      refine .malformed fun m hm => ?_
      by_contra hlimit
      -- the integer and the one after it cannot both be what the numeral denotes
      have hvalue := denoted m (congrArg some hm.symm) (Nat.not_lt.1 hlimit) (m.value + 1)
      rw [h] at hvalue
      omega

example : numberOr (fun s => (readInteger s).toOption) 7 (some " -0_3١\n") = -31 := by
  decide +kernel

end Lapse
