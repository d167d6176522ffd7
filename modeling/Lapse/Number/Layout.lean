import Lapse.Number.Shortest

namespace Lapse

structure Layout where
  positionalFrom : Int
  positionalBelow : Int
  pointZero : Bool
  exponentWidth : Nat
  nan : String
  infinity : String

/-- Numbers are written positionally from `10 ^ -4` up to `10 ^ 16`, whole ones with `.0`, and
otherwise with a signed exponent of two digits at least. -/
def Layout.standard : Layout where
  positionalFrom := -4
  positionalBelow := 16
  pointZero := true
  exponentWidth := 2
  nan := "nan"
  infinity := "inf"

def digitChar (d : Nat) : Char := Char.ofNat ('0'.toNat + d)

def writeDigits (ds : List Nat) : String := String.ofList (ds.map digitChar)

def zeros (n : Nat) : String := String.ofList (List.replicate n '0')

def Layout.exponent (l : Layout) (e : Int) : String :=
  let digits := toString e.natAbs
  (if e < 0 then "-" else "+") ++ zeros (l.exponentWidth - digits.length) ++ digits

def Layout.finite (l : Layout) (d : Digits) : String :=
  let exponent := d.scale - 1
  if l.positionalFrom ≤ exponent ∧ exponent < l.positionalBelow then
    if d.scale ≤ 0 then "0." ++ zeros (-d.scale).toNat ++ writeDigits d.digits
    else
      let whole := d.scale.toNat
      let fraction := d.digits.drop whole
      writeDigits (d.digits.take whole) ++ zeros (whole - d.digits.length) ++
        if fraction.isEmpty then (if l.pointZero then ".0" else "") else "." ++ writeDigits fraction
  else
    writeDigits (d.digits.take 1) ++
      (if d.digits.length ≤ 1 then "" else "." ++ writeDigits (d.digits.drop 1)) ++
      "e" ++ l.exponent exponent

def minusSign (negative : Bool) : String := if negative then "-" else ""

def Binary64.write (x : Binary64) (l : Layout) : String :=
  match x.datum with
  | .nan => l.nan
  | .infinite negative => minusSign negative ++ l.infinity
  | .finite negative 0 _ => minusSign negative ++ l.finite ⟨[0], 1⟩
  | .finite negative m q => minusSign negative ++ l.finite (.shortest m q)

def Binary64.writeFixed (x : Binary64) (places : Nat) (l : Layout) : String :=
  match x.datum with
  | .nan => l.nan
  | .infinite negative => minusSign negative ++ l.infinity
  | .finite negative m q =>
    let scaled := fixedPlaces m q places
    let fraction := toString (scaled % Nat.pow 10 places)
    minusSign negative ++ toString (scaled / Nat.pow 10 places) ++
      if places = 0 then "" else "." ++ zeros (places - fraction.length) ++ fraction

end Lapse
