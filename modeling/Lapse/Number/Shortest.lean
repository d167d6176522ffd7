import Lapse.Number.Binary64

namespace Lapse

/-- Digits after a decimal point, `0.d₁d₂… * 10 ^ scale`. -/
structure Digits where
  digits : List Nat
  scale : Int

/-- The reals that round to `m * 2 ^ q`, and the value itself, in units of `2 ^ (q - 2)`. -/
structure Rounding where
  low : Nat
  value : Nat
  high : Nat
  closed : Bool

/-- The gap below a power of two is half the gap above it. -/
def Rounding.around (m : Nat) (q : Int) : Rounding where
  low := if m = Nat.pow 2 52 ∧ q ≠ -1074 then 4 * m - 1 else 4 * m - 2
  value := 4 * m
  high := 4 * m + 2
  closed := m % 2 = 0

def Rounding.contains (r : Rounding) (num den : Nat) : Bool :=
  if r.closed then r.low * den ≤ num && num ≤ r.high * den
  else r.low * den < num && num < r.high * den

def decimalScale (num den : Nat) : Int :=
  let estimate := (((num.log2 : Int) - den.log2) * 30103).fdiv 100000
  let below (k : Int) : Bool :=
    if 0 ≤ k then num < den * Nat.pow 10 k.toNat else num * Nat.pow 10 (-k).toNat < den
  (([-1, 0, 1, 2].map (estimate + ·)).find? below).getD (estimate + 3)

def decimalDigits (n : Nat) : List Nat := (Nat.toDigits 10 n).map (fun c => c.toNat - '0'.toNat)

/-- The point of the grid `10 ^ (scale - count)` that lies in the interval, the nearer of two, and
of two equally near ones the even one. -/
def Rounding.onGrid? (r : Rounding) (unit : Int) (scale : Int) (count : Nat) : Option Nat :=
  let exponent := scale - count
  let (unitNum, unitDen) := dyadic 1 unit
  let (gridNum, gridDen) :=
    if 0 ≤ exponent then (Nat.pow 10 exponent.toNat, 1) else (1, Nat.pow 10 (-exponent).toNat)
  -- A grid point `d` is `d * up / down` of the interval's units.
  let up := gridNum * unitDen
  let down := gridDen * unitNum
  let floor := r.value * down / up
  let low := r.contains (floor * up) down
  let high := r.contains ((floor + 1) * up) down
  match low, high with
  | true, false => some floor
  | false, true => some (floor + 1)
  | true, true => some (roundDiv (r.value * down) up)
  | false, false => none

def Digits.shortest (m : Nat) (q : Int) : Digits :=
  let (num, den) := dyadic m q
  let scale := decimalScale num den
  let rounding := Rounding.around m q
  let counts := (List.range 17).map (· + 1)
  match counts.findSome? (fun n => (rounding.onGrid? (q - 2) scale n).map (n, ·)) with
  | some (n, d) =>
    let ds := decimalDigits d
    -- A grid point that is itself the next power of ten has one digit more.
    ⟨(ds.reverse.dropWhile (· == 0)).reverse, scale + (ds.length - n)⟩
  | none => ⟨decimalDigits (num / den), (decimalDigits (num / den)).length⟩

def fixedPlaces (m : Nat) (q : Int) (places : Nat) : Nat :=
  let (num, den) := dyadic m q
  roundDiv (num * Nat.pow 10 places) den

end Lapse
