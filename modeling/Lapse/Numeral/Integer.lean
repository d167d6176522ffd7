import Lapse.Text.Blank
import Lapse.Text.Digit

namespace Lapse

inductive Unread
  | malformed
  | tooLong (digits : Nat)
  deriving DecidableEq

def digitLimit : Nat := 4300

def splitSign : List Char → Bool × List Char
  | '-' :: cs => (true, cs)
  | '+' :: cs => (false, cs)
  | cs => (false, cs)

def digitRun? : List Char → Option (List Nat)
  | [] => none
  | [c] => (digitValue? c).map ([·])
  | c :: '_' :: cs => do return (← digitValue? c) :: (← digitRun? cs)
  | c :: cs => do return (← digitValue? c) :: (← digitRun? cs)

def isRunChar (c : Char) : Bool := isDigit c || c == '_'

def ofDigits (ds : List Nat) : Nat := ds.foldl (fun n d => 10 * n + d) 0

def applySign (negative : Bool) (n : Nat) : Int := if negative then -(n : Int) else n

/-- Reads an integer with nothing around it. A run of too many digits is refused before what
follows it is looked at. -/
def readSigned (cs : List Char) : Except Unread Int :=
  let (negative, body) := splitSign cs
  match digitRun? (body.takeWhile isRunChar) with
  | none => .error .malformed
  | some ds =>
    if digitLimit < ds.length then .error (.tooLong ds.length)
    else if body.dropWhile isRunChar = [] then .ok (applySign negative (ofDigits ds))
    else .error .malformed

def readInteger (s : String) : Except Unread Int := readSigned (trimBy isNumeralBlank s.toList)

end Lapse
