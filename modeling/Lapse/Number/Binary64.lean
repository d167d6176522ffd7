namespace Lapse

structure Binary64 where
  bits : UInt64
  deriving DecidableEq, Inhabited

/-- What 64 bits stand for; a finite datum is `m * 2 ^ q`, with its sign apart. -/
inductive Datum
  | nan
  | infinite (negative : Bool)
  | finite (negative : Bool) (m : Nat) (q : Int)
  deriving DecidableEq

def dyadic (a : Nat) (q : Int) : Nat × Nat :=
  if 0 ≤ q then (a * Nat.pow 2 q.toNat, 1) else (a, Nat.pow 2 (-q).toNat)

def roundDiv (num den : Nat) : Nat :=
  let quotient := num / den
  let rest := 2 * (num % den)
  if rest < den then quotient
  else if den < rest then quotient + 1
  else quotient + quotient % 2

namespace Binary64

def negative (x : Binary64) : Bool := Nat.pow 2 63 ≤ x.bits.toNat

def exponent (x : Binary64) : Nat := x.bits.toNat / Nat.pow 2 52 % Nat.pow 2 11

def fraction (x : Binary64) : Nat := x.bits.toNat % Nat.pow 2 52

def datum (x : Binary64) : Datum :=
  if x.exponent = 2047 then
    if x.fraction = 0 then .infinite x.negative else .nan
  else if x.exponent = 0 then .finite x.negative x.fraction (-1074)
  else .finite x.negative (Nat.pow 2 52 + x.fraction) (x.exponent - 1075)

def isNan (x : Binary64) : Bool := x.datum = .nan

def nan : Binary64 := ⟨0x7ff8000000000000⟩

def canonical (x : Binary64) : Binary64 := if x.isNan then nan else x

def ofMagnitude (negative : Bool) (magnitude : Nat) : Binary64 :=
  ⟨UInt64.ofNat ((if negative then Nat.pow 2 63 else 0) + magnitude)⟩

def infinity (negative : Bool) : Binary64 := ofMagnitude negative (2047 * Nat.pow 2 52)

def zero (negative : Bool) : Binary64 := ofMagnitude negative 0

def binaryExponent (num den : Nat) : Int :=
  let e : Int := (num.log2 : Int) - den.log2
  let fits := if 0 ≤ e then den * Nat.pow 2 e.toNat ≤ num else den ≤ num * Nat.pow 2 (-e).toNat
  if fits then e else e - 1

/-- The datum nearest to `± num / den`, ties going to an even significand; too large a
magnitude becomes an infinity. -/
def ofRatio (negative : Bool) (num den : Nat) : Binary64 :=
  if num = 0 then zero negative
  else
    let q := max (binaryExponent num den - 52) (-1074)
    let m :=
      if 0 ≤ q then roundDiv num (den * Nat.pow 2 q.toNat)
      else roundDiv (num * Nat.pow 2 (-q).toNat) den
    let magnitude :=
      if m < Nat.pow 2 52 then m else (q + 1075).toNat * Nat.pow 2 52 + (m - Nat.pow 2 52)
    if 2047 * Nat.pow 2 52 ≤ magnitude then infinity negative else ofMagnitude negative magnitude

def ofInt? (i : Int) : Option Binary64 :=
  let x := ofRatio (i < 0) i.natAbs 1
  match x.datum with
  | .finite .. => some x
  | _ => none

def signed (negative : Bool) (a : Nat) : Int := if negative then -(a : Int) else a

def integer? (x : Binary64) : Option Int :=
  match x.datum with
  | .finite negative m q =>
    let (num, den) := dyadic m q
    if num % den = 0 then some (signed negative (num / den)) else none
  | _ => none

def nonPositive (x : Binary64) : Bool :=
  match x.datum with
  | .nan => false
  | .infinite negative => negative
  | .finite negative m _ => negative || m == 0

def isZero (x : Binary64) : Bool :=
  match x.datum with
  | .finite _ m _ => m == 0
  | _ => false

end Binary64

end Lapse
