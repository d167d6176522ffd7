import Lapse.Number.Binary64
import Lapse.Numeral.Integer

namespace Lapse

/-- The datum nearest to `± mantissa * 10 ^ exponent`. Far outside the finite range the power is
not computed: the result is an infinity or a zero. -/
def Binary64.ofDecimal (negative : Bool) (mantissa : Nat) (exponent : Int) : Binary64 :=
  let scale := exponent + (mantissa.log2 : Int) * 30102 / 100000
  if mantissa = 0 then zero negative
  else if 400 < scale then infinity negative
  else if scale < -400 then zero negative
  else if 0 ≤ exponent then ofRatio negative (mantissa * Nat.pow 10 exponent.toNat) 1
  else ofRatio negative mantissa (Nat.pow 10 (-exponent).toNat)

def optionalRun? (cs : List Char) : Option (List Nat) :=
  if cs = [] then some [] else digitRun? cs

def readExponent? : List Char → Option Int
  | [] => some 0
  | c :: cs =>
    if c = 'e' ∨ c = 'E' then
      let (negative, run) := splitSign cs
      (digitRun? run).map fun ds => applySign negative (ofDigits ds)
    else none

def readDecimal? (negative : Bool) (cs : List Char) : Option Binary64 := do
  let whole ← optionalRun? (cs.takeWhile isRunChar)
  let (fraction, rest) ← match cs.dropWhile isRunChar with
    | '.' :: rest => do pure (← optionalRun? (rest.takeWhile isRunChar), rest.dropWhile isRunChar)
    | rest => pure ([], rest)
  if whole = [] ∧ fraction = [] then none
  else
    let exponent ← readExponent? rest
    return .ofDecimal negative (ofDigits (whole ++ fraction)) (exponent - fraction.length)

def readSignedReal? (cs : List Char) : Option Binary64 :=
  let (negative, body) := splitSign cs
  let name := String.ofList (body.map Char.toLower)
  if name = "inf" ∨ name = "infinity" then some (.infinity negative)
  else if name = "nan" then some .nan
  else readDecimal? negative body

def readReal? (s : String) : Option Binary64 := readSignedReal? (trimBy isNumeralBlank s.toList)

end Lapse
